import Mathlib.Data.Fintype.Card
import Xv6.Lib.Ring
import Xv6.Param

/-! # `bio.c`: the buffer cache

The buffers and the list through them, with the sections that run under
`bcache.lock`.  A pointer to a buffer is its index, and `none` is `&bcache.head`. -/
namespace Xv6
open Function (update)
open List

/-- `struct buf` without its data, its sleep-lock and its links. -/
structure Buf where
  valid : Bool
  dirty : Bool
  dev : ℕ
  blockno : ℕ
  refcnt : ℕ
  deriving DecidableEq, Repr

abbrev BufPtr := Option (Fin NBUF)

structure Bcache where
  buf : Fin NBUF → Buf
  next : BufPtr → BufPtr
  prev : BufPtr → BufPtr

def firstBuf : Fin NBUF := ⟨0,by decide⟩

namespace Bcache

def label (c : Bcache) (b : Fin NBUF) : ℕ × ℕ := ((c.buf b).dev,(c.buf b).blockno)

def setBuf (c : Bcache) (b : Fin NBUF) (x : Buf) : Bcache := { c with buf := update c.buf b x }

theorem setBuf_self (c : Bcache) (b : Fin NBUF) (x : Buf) : (c.setBuf b x).buf b = x :=
  Function.update_self _ _ _

theorem setBuf_of_ne (c : Bcache) {b d : Fin NBUF} (h : d ≠ b) (x : Buf) :
    (c.setBuf b x).buf d = c.buf d :=
  Function.update_of_ne h _ _

/-- `b->next = head.next; b->prev = &head; head.next->prev = b; head.next = b;` -/
def insert (c : Bcache) (b : Fin NBUF) : Bcache :=
  { c with
    next := update (update c.next (some b) (c.next none)) none (some b)
    prev := update (update c.prev (some b) none) (c.next none) (some b) }

/-- `b->next->prev = b->prev; b->prev->next = b->next;` -/
def unlink (c : Bcache) (b : Fin NBUF) : Bcache :=
  { c with
    next := update c.next (c.prev (some b)) (c.next (some b))
    prev := update c.prev (c.next (some b)) (c.prev (some b)) }

/-- Static memory, with `head` linked to itself. -/
def empty : Bcache := ⟨fun _ => ⟨false,false,0,0,0⟩,fun _ => none,fun _ => none⟩

def binit : Bcache := (List.finRange NBUF).foldl insert empty

/-- The first loop of `bget`. -/
def cached (c : Bcache) (dev blockno : ℕ) : Option (Fin NBUF) :=
  (Ring.search c.next none (fun x => x.any fun b => c.label b == (dev,blockno)) (NBUF + 1)
    (c.next none)).join

def idle (c : Bcache) (b : Fin NBUF) : Bool := (c.buf b).refcnt == 0 && !(c.buf b).dirty

/-- The second loop of `bget`. -/
def unused (c : Bcache) : Option (Fin NBUF) :=
  (Ring.search c.prev none (fun x => x.any c.idle) (NBUF + 1) (c.prev none)).join

/-- `bget` up to `acquiresleep`; `none` is `panic("bget: no buffers")`. -/
def bget (c : Bcache) (dev blockno : ℕ) : Option (Fin NBUF × Bcache) :=
  match c.cached dev blockno with
  | some b => some (b,c.setBuf b { c.buf b with refcnt := (c.buf b).refcnt + 1 })
  | none =>
    match c.unused with
    | some b => some (b,c.setBuf b ⟨false,false,dev,blockno,1⟩)
    | none => none

/-- `brelse` after `releasesleep`. -/
def brelse (c : Bcache) (b : Fin NBUF) : Bcache :=
  let c := c.setBuf b { c.buf b with refcnt := (c.buf b).refcnt - 1 }
  if (c.buf b).refcnt = 0 then (c.unlink b).insert b else c

def decref (c : Bcache) (b : Fin NBUF) : Bcache :=
  c.setBuf b { c.buf b with refcnt := (c.buf b).refcnt - 1 }

theorem brelse_of_last {c : Bcache} {b : Fin NBUF} (h : (c.buf b).refcnt - 1 = 0) :
    c.brelse b = ((c.decref b).unlink b).insert b :=
  if_pos (by simpa [setBuf] using h)

theorem brelse_of_used {c : Bcache} {b : Fin NBUF} (h : (c.buf b).refcnt - 1 ≠ 0) :
    c.brelse b = c.decref b :=
  if_neg (by simpa [setBuf] using h)

/-- Of the buffers, `brelse` changes one `refcnt` only. -/
theorem brelse_buf (c : Bcache) (b d : Fin NBUF) : (c.brelse b).buf d =
    { c.buf d with refcnt := if d = b then (c.buf d).refcnt - 1 else (c.buf d).refcnt } := by
  have hbuf : (c.brelse b).buf = (c.decref b).buf := by
    by_cases h : (c.buf b).refcnt - 1 = 0
    · rw [brelse_of_last h]
      rfl
    · rw [brelse_of_used h]
  rw [hbuf]
  by_cases hd : d = b
  · subst hd; simp [decref,setBuf]
  · simp [decref,setBuf,hd]

theorem brelse_kept (c : Bcache) (b d : Fin NBUF) :
    ((c.brelse b).buf d).valid = (c.buf d).valid ∧ ((c.brelse b).buf d).dirty = (c.buf d).dirty ∧
      (c.brelse b).label d = c.label d := by
  rw [label,brelse_buf]
  exact ⟨rfl,rfl,rfl⟩

/-- The list from `head.next` on. -/
def Order (c : Bcache) (l : List (Fin NBUF)) : Prop :=
  Ring.IsRing c.next c.prev none (l.map some) ∧ ∀ b, b ∈ l

theorem insert_ring {c : Bcache} {b : Fin NBUF} {l : List (Fin NBUF)}
    (h : Ring.IsRing c.next c.prev none (l.map some)) (hb : b ∉ l) :
    Ring.IsRing (c.insert b).next (c.insert b).prev none ((b :: l).map some) :=
  Ring.IsRing.insert h (by simpa using hb)

theorem binit_buf (b : Fin NBUF) : binit.buf b = ⟨false,false,0,0,0⟩ := by
  have key : ∀ (todo : List (Fin NBUF)) (c : Bcache), (todo.foldl insert c).buf = c.buf := by
    intro todo
    induction todo with
    | nil => exact fun _ => rfl
    | cons x todo ih => exact fun c => ih (c.insert x)
  rw [binit,key]
  rfl

theorem binit_order : binit.Order (List.finRange NBUF).reverse := by
  -- the buffers that the loop has passed are in the ring, the last one first
  have key : ∀ (todo done : List (Fin NBUF)) (c : Bcache), (todo ++ done).Nodup →
      Ring.IsRing c.next c.prev none (done.map some) →
      Ring.IsRing (todo.foldl insert c).next (todo.foldl insert c).prev none
        ((todo.reverse ++ done).map some) := by
    intro todo
    induction todo with
    | nil => exact fun _ _ _ h => h
    | cons b todo ih =>
      intro done c hn h
      obtain ⟨hb,hn'⟩ := nodup_cons.mp hn
      have := ih (b :: done) (c.insert b) (nodup_middle.mpr hn)
        (insert_ring h fun hd => hb (mem_append_right _ hd))
      rwa [reverse_cons,append_assoc]
  refine ⟨?_,fun b => by simp⟩
  have := key (List.finRange NBUF) [] empty (by simp [nodup_finRange]) ⟨⟨rfl,rfl⟩,by simp⟩
  rwa [append_nil] at this

section Order
variable {c : Bcache} {l : List (Fin NBUF)}

theorem Order.nodup (h : c.Order l) : l.Nodup :=
  (nodup_map_iff (Option.some_injective _)).mp (nodup_cons.mp h.1.nodup).2

theorem Order.length (h : c.Order l) : l.length = NBUF := by
  have := List.Nodup.length_le_card h.nodup
  have hs : (List.finRange NBUF).length ≤ l.length :=
    ((nodup_finRange NBUF).subperm fun b _ => h.2 b).length_le
  simp only [Fintype.card_fin,length_finRange] at this hs
  omega

theorem find?_map_some (f : Fin NBUF → Bool) (l : List (Fin NBUF)) :
    ((l.map some).find? fun x => x.any f).join = l.find? f := by
  rw [List.find?_map]
  change ((l.find? f).map some).join = l.find? f
  cases l.find? f with
  | none => rfl
  | some b => rfl

theorem Order.cached_eq (h : c.Order l) (dev blockno : ℕ) :
    c.cached dev blockno = l.find? fun b => c.label b == (dev,blockno) := by
  rw [cached,h.1.seg.search_eq (nodup_cons.mp h.1.nodup).1
    (by rw [length_map,h.length]; omega),find?_map_some]

theorem Order.unused_eq (h : c.Order l) : c.unused = l.reverse.find? c.idle := by
  have hs := h.1.seg.reverse
  rw [← map_reverse] at hs
  rw [unused,hs.search_eq (by simp) (by rw [length_map,length_reverse,h.length]; omega),
    find?_map_some]

/-- The pointers that `brelse` changes move the buffer to the front. -/
theorem Order.moved {b : Fin NBUF} (h : c.Order l) :
    ((c.unlink b).insert b).Order (b :: l.erase b) := by
  obtain ⟨l1,l2,hb,rfl,he⟩ := exists_erase_eq (h.2 b)
  have hn := h.nodup
  have hr : Ring.IsRing c.next c.prev none (l1.map some ++ some b :: l2.map some) := by
    have := h.1
    rwa [map_append,map_cons] at this
  rw [he]
  refine ⟨insert_ring ?_ ?_,?_⟩
  · rw [map_append]
    exact hr.unlink
  · exact (nodup_cons.mp (nodup_middle.mp hn)).1
  · intro x
    have := h.2 x
    simp only [mem_append,mem_cons] at this ⊢
    tauto

end Order
end Bcache
end Xv6
