import Mathlib.Data.List.TakeWhile
import Xv6.User.EditorCursor

/-! # The command loop of the editor

`cmdLoop` takes a line apart into a name and arguments and gives them to `cmdExec`.  The mark of
unsaved changes, the buffer `args` and the pointer `oriPath` outlive the line. -/
namespace Xv6.Editor
open List Option

variable {s s' : State} {L : List ℕ} {env : Env} {args : List UInt8}

def linesFrom (next : ℕ → ℕ) (content : ℕ → List UInt8) (tail : ℕ) : ℕ → ℕ → List (List UInt8)
  | 0, _ => []
  | fuel + 1, now =>
    if now = tail ∨ now = 0 then [] else content now :: linesFrom next content tail fuel (next now)

def State.text (s : State) : List (List UInt8) :=
  linesFrom s.next s.content s.tailNode s.nodes.length (s.next s.headNode)

/-- What the text and its mark depend on. -/
def State.doc (s : State) := (s.next,s.content,s.nodes,s.headNode,s.tailNode,s.isDirty)

theorem text_of_doc (h : s'.doc = s.doc) : s'.text = s.text ∧ s'.isDirty = s.isDirty := by
  simp only [State.doc,Prod.mk.injEq] at h
  obtain ⟨h1,h2,h3,h4,h5,h6⟩ := h
  exact ⟨by rw [State.text,State.text,h1,h2,h3,h4,h5],h6⟩

/-- The list is left alone, or the change is marked. -/
def Marks (s s' : State) : Prop := s'.isDirty = true ∨ s'.doc = s.doc

theorem Marks.trans {s1 : State} (h : Marks s s1) (h' : Marks s1 s') : Marks s s' := by
  rcases h' with h' | h'
  · exact .inl h'
  · exact h.imp (fun h => (text_of_doc h').2.trans h) h'.trans

theorem isDirty_newNode {p : ℕ} (hp : p ≠ 0) : (newNode env s p).1.isDirty = true := by
  rw [newNode,if_neg hp]

theorem marks_deleteNode {a : ℕ} : Marks s (deleteNode s a).1 := by
  grind [deleteNode,Marks]

theorem marks_freeLoop {tmp fuel now : ℕ} (h : freeLoop tmp fuel s now = some s') : Marks s s' := by
  induction fuel generalizing s now with
  | zero => cases h
  | succ fuel ih =>
    unfold freeLoop at h
    grind [Marks,marks_deleteNode,Marks.trans]

theorem marks_ins {idx : ℤ} (h : ins env s idx args = some s') : Marks s s' := by
  unfold ins at h
  grind [Marks,State.setContent,isDirty_newNode,bind_eq_some_iff]

theorem marks_mod {idx : ℤ} (h : mod env s idx args = some s') : Marks s s' := by
  unfold mod at h
  grind [Marks,State.setContent,isDirty_newNode,bind_eq_some_iff]

theorem marks_del (h : del s args = some s') : Marks s s' := by
  unfold del freeList at h
  grind [Marks,marks_freeLoop,bind_eq_some_iff]

/-- `cut` does not mark its change. -/
theorem isDirty_cut (h : cut s args = some s') : s'.isDirty = s.isDirty := by
  unfold cut at h
  split at h
  next => cases h; rfl
  next =>
    split at h
    next =>
      obtain ⟨a,-,h⟩ := bind_eq_some_iff.1 h
      obtain ⟨b,-,h⟩ := bind_eq_some_iff.1 h
      obtain ⟨c,-,h⟩ := bind_eq_some_iff.1 h
      split at h
      next => cases h
      next => cases h; rfl
    next => cases h; rfl

theorem doc_showLoop {e : ℤ} {fuel : ℕ} (h : showLoop e fuel s = some s') : s'.doc = s.doc := by
  induction fuel generalizing s with
  | zero => cases h
  | succ fuel ih =>
    unfold showLoop countLine at h
    grind [State.doc,bind_eq_some_iff,map_eq_some_iff]

theorem doc_showStart {index lines : ℤ} {r : State × Option ℤ}
    (h : showStart s index lines = some r) : r.1.doc = s.doc := by
  unfold showStart showFrom showBack at h
  grind [State.doc,map_eq_some_iff]

theorem doc_showFile {index lines : ℤ} (h : showFile s index lines = some s') : s'.doc = s.doc := by
  unfold showFile at h
  split at h
  next => cases h; rfl
  next =>
    obtain ⟨r,hr,h⟩ := bind_eq_some_iff.1 h
    split at h
    next => cases h; exact doc_showStart hr
    next => exact (doc_showLoop h).trans (doc_showStart hr)

/-- A command other than `w`, where `cut` is refused or comes after another change. -/
theorem marks_cmdExec {name : Name} (hc : name = .c → s.isDirty = true ∨ Refused s args .c)
    (hw : name ≠ .w) (h : cmdExec env s args name = some s') : Marks s s' := by
  have hsame : ∀ {p : Prop} [Decidable p] {x : Option State}, (x = some s' → Marks s s') →
      (if p then some s else x) = some s' → Marks s s' := by
    intro p _ x hx h
    split at h
    next =>
      cases h
      exact .inr rfl
    next => exact hx h
  cases name with
  | i => exact marks_ins h
  | insAt => exact hsame marks_ins h
  | d => exact marks_del h
  | m => exact marks_mod h
  | modAt => exact hsame marks_mod h
  | c =>
    rcases hc rfl with hd | hr
    · exact .inl ((isDirty_cut h).trans hd)
    · cases (cut_refused hr).symm.trans h
      exact .inr rfl
  | l =>
    refine hsame (fun h => ?_) h
    split at h
    next => exact .inr (doc_showFile h)
    next => exact .inr (doc_showFile h)
  | n => exact hsame (fun h => .inr (doc_showFile h)) h
  | p => exact hsame (fun h => .inr (doc_showFile h)) h
  | num =>
    cases h
    unfold num
    right
    split
    · rfl
    · repeat' split
      all_goals rfl
  | w => exact absurd rfl hw

/-- `quit()` with the answer to its question: whether it has asked and whether the editor ends.
`wq` is `w` and `quit()`. -/
def quit (env : Env) (s : State) (answer : List UInt8) : Option (State × Bool × Bool) :=
  if s.isDirty then
    if byteAt answer 1 ≠ 0 ∧ byteAt answer 1 ≠ 10 then some (s,true,false)
    else if byteAt answer 0 = 89 ∨ byteAt answer 0 = 121 then
      (saveFile env s).map fun r => (r.1,true,true)
    else if byteAt answer 0 = 78 ∨ byteAt answer 0 = 110 then some (s,true,true)
    else some (s,true,false)
  else some (s,false,true)

/-- A command, with the lines of the last load or save. -/
def tracked (x : State × List (List UInt8)) (c : Command) : Option (State × List (List UInt8)) :=
  (step x.1 c).map fun s' => (s',if c.2.2 = .w ∧ c.1.opens = true then x.1.text else x.2)

/-- `cut` is refused, or comes after another change. -/
def CutMarked (x : State × List (List UInt8)) (c : Command) : Prop :=
  c.2.2 = .c → x.1.isDirty = true ∨ Refused x.1 c.2.1 .c

/-- The text without the mark is the one that was loaded or saved last, and `quit` does not throw
another one away without a question. -/
theorem dirty_flag_sound (env : Env) (oob : UInt8) (reads : List (List UInt8))
    {x : State × List (List UInt8)}
    (h : Machine.Reach tracked CutMarked (load env oob reads,(load env oob reads).text) x) :
    (x.1.isDirty = false → x.1.text = x.2) ∧
    ∀ env answer s' asked ends, quit env x.1 answer = some (s',asked,ends) →
      (ends = false → s' = x.1) ∧ (asked = false → x.1.text = x.2) := by
  have hinv : x.1.isDirty = false → x.1.text = x.2 := by
    refine h.invariant (I := fun x => x.1.isDirty = false → x.1.text = x.2) (fun _ => rfl) ?_
    rintro ⟨s,saved⟩ x' ⟨env,args,name⟩ hI hm hs
    obtain ⟨s',hs',rfl⟩ := map_eq_some_iff.1 hs
    intro hd
    by_cases hw : name = .w
    · subst hw
      obtain ⟨⟨s'',out⟩,hsave,rfl⟩ := map_eq_some_iff.1 hs'
      unfold saveFile at hsave
      split at hsave
      next hopen =>
        obtain ⟨_,-,heq⟩ := map_eq_some_iff.1 hsave
        cases heq
        exact (if_pos ⟨rfl,hopen⟩).symm
      next hopen =>
        cases hsave
        exact (hI hd).trans (if_neg fun hc => hopen hc.2).symm
    · rcases marks_cmdExec hm hw hs' with hd' | hdoc
      · cases hd'.symm.trans hd
      · obtain ⟨htext,hdirty⟩ := text_of_doc hdoc
        exact (htext.trans (hI (hdirty.symm.trans hd))).trans (if_neg fun hc => hw hc.1).symm
  refine ⟨hinv,fun env answer s' asked ends hq => ?_⟩
  unfold quit at hq
  split at hq
  next =>
    split at hq
    next => cases hq; exact ⟨fun _ => rfl,nofun⟩
    next =>
      split at hq
      next =>
        obtain ⟨r,-,heq⟩ := map_eq_some_iff.1 hq
        cases heq
        exact ⟨nofun,nofun⟩
      next =>
        split at hq
        next => cases hq; exact ⟨nofun,nofun⟩
        next => cases hq; exact ⟨fun _ => rfl,nofun⟩
  next hd => cases hq; exact ⟨nofun,fun _ => hinv (by simpa using hd)⟩

/-- A line is entered and saved. -/
theorem dirty_flag_sound_saved : ∃ x,
    Machine.exec tracked (emptyDoc,emptyDoc.text) [(sumEnv,[97, 0],.i), (sumEnv,[0],.w)] = some x ∧
      x.1.isDirty = false ∧ x.1.text = x.2 ∧ x.2 = [[97]] := by
  obtain ⟨x,hx,hd,ht⟩ : ∃ x ∈ Machine.exec tracked (emptyDoc,emptyDoc.text)
      [(sumEnv,[97, 0],.i), (sumEnv,[0],.w)], x.1.isDirty = false ∧ x.2 = [[97]] := by
    decide +kernel
  have hok : Machine.Allows tracked CutMarked (emptyDoc,emptyDoc.text)
      [(sumEnv,[97, 0],.i), (sumEnv,[0],.w)] :=
    ⟨nofun,fun _ _ => ⟨nofun,fun _ _ => trivial⟩⟩
  exact ⟨x,hx,hd,(dirty_flag_sound sumEnv 0 [] (.of_allows .init hok hx)).1 hd,ht⟩

/-- `cut` changes the text of two lines, and `quit` ends without a question. -/
theorem cut_leaves_clean : ∃ s, step twoLines (sumEnv,[49, 32, 49, 32, 50, 0],.c) = some s ∧
    twoLines.isDirty = false ∧ s.isDirty = false ∧ twoLines.text = [[97], [98]] ∧
    s.text = [[98], [97]] ∧ (quit sumEnv s []).map Prod.snd = some (false,true) := by
  decide +kernel

section Buffers

def COMMAND_MAX_LEN : ℕ := 200

/-- What `strcmp` finds a name to be. -/
inductive Action where
  | cmd (name : Name) | help | quit | writeQuit | unknown
  deriving DecidableEq

def names : List (String × Action) :=
  [("i",.cmd .i), ("ins",.cmd .i), ("i-",.cmd .insAt), ("ins-",.cmd .insAt), ("d",.cmd .d),
    ("del",.cmd .d), ("m",.cmd .m), ("mod",.cmd .m), ("m-",.cmd .modAt), ("mod-",.cmd .modAt),
    ("c",.cmd .c), ("cut",.cmd .c), ("l",.cmd .l), ("list",.cmd .l), ("n",.cmd .n),
    ("next",.cmd .n), ("p",.cmd .p), ("prev",.cmd .p), ("num",.cmd .num), ("h",.help),
    ("help",.help), ("w",.cmd .w), ("wri",.cmd .w), ("q",.quit), ("quit",.quit), ("wq",.writeQuit)]

def action (name : List UInt8) : Action :=
  (names.find? fun p => p.1.toList.map (fun c => c.toNat.toUInt8) = name).elim .unknown Prod.snd

/-- The bytes behind the name, up to the newline. -/
def argText (input : List UInt8) : List UInt8 :=
  (input.drop (wordLength input + 1)).takeWhile (· != 10)

/-- The name and the arguments that `cmdLoop` finds, if it calls `cmdExec`. -/
def parse (input : List UInt8) : Option (List UInt8 × List UInt8) :=
  let cmdi := wordLength input
  if cmdi > 4 then none
  else if byteAt input cmdi ≠ 32 then some (input.take cmdi,[])
  else if (argText input).length ≥ COMMAND_MAX_LEN - 1 then none
  else some (input.take cmdi,argText input)

/-- The last index at which `cmdLoop` reads `input`, and the last at which it writes `name` and
`args`. -/
def cmdLoopUses (input : List UInt8) : ℕ × ℕ × ℕ :=
  let cmdi := wordLength input
  if cmdi > 4 then (4,3,0)
  else if byteAt input cmdi ≠ 32 then (cmdi,cmdi,0)
  else (cmdi + 1 + min (argText input).length (COMMAND_MAX_LEN - 1),cmdi,
    min (argText input).length (COMMAND_MAX_LEN - 2))

/-- The action of a line, and the buffer `args` with old bytes behind the NUL. -/
def request (input old : List UInt8) : Action × List UInt8 :=
  match parse input with
  | none => (.unknown,0 :: old.drop 1)
  | some (name,text) => (action name,text ++ 0 :: old.drop (text.length + 1))

def nul (args : List UInt8) : ℕ := (args.takeWhile (· != 0)).length

def blank (args : List UInt8) : ℕ := (args.takeWhile (· != 32)).length

/-- The last index that `str2Idx` reads. -/
def str2IdxRead (str : List UInt8) : ℕ := min (wordLength str) LINE_IDX_SPACE

/-- The last index that `del` and `cut` read, for `n` words behind the first. -/
def wordsRead : ℕ → List UInt8 → ℕ
  | 0, args => str2IdxRead args
  | n + 1, args =>
    if str2Idx args = -1 then str2IdxRead args
    else if byteAt args (wordLength args) ≠ 32 then wordLength args
    else wordLength args + 1 + wordsRead n (restArgs args)

/-- The last index at which `cmdExec` and the functions it calls read `args`. -/
def argsRead (args : List UInt8) : Action → ℕ
  | .cmd .i | .cmd .m => (textOf args).length
  | .cmd .insAt | .cmd .modAt =>
    if str2Idx args = -1 then str2IdxRead args
    else blank args + 1 + (textOf (args.drop (blank args + 1))).length
  | .cmd .d => wordsRead 1 args
  | .cmd .c => wordsRead 2 args
  | .cmd .l | .cmd .n | .cmd .p => str2IdxRead args
  | .cmd .num => if byteAt args 0 = 0 then 0 else 1
  | .cmd .w | .writeQuit => nul args
  | .help | .quit | .unknown => 0

/-- `cmdExec`, with the answer to the question of `quit` and whether the editor ends. -/
def execute (env env' : Env) (s : State) (args answer : List UInt8) :
    Action → Option (State × Bool)
  | .cmd name => (cmdExec env s args name).map (·,false)
  | .help | .unknown => some (s,false)
  | .quit => (quit env' s answer).map fun r => (r.1,r.2.2)
  | .writeQuit => do
    let s ← cmdExec env s args .w
    (quit env' s answer).map fun r => (r.1,r.2.2)

/-- What `gets` can read. -/
def Delivered (line : List UInt8) : Prop :=
  line.length < COMMAND_MAX_LEN ∧ ∀ c ∈ line.dropLast, c ≠ 10 ∧ c ≠ 13

/-- Behind a name and a blank are a newline and at most as many bytes before it as `args` has room
for. -/
def Fits (line : List UInt8) : Prop :=
  wordLength line ≤ 4 → byteAt line (wordLength line) = 32 →
    10 ∈ line.drop (wordLength line + 1) ∧ (argText line).length < COMMAND_MAX_LEN - 5

/-- The commands that take a text from behind a blank have the blank. -/
def Blank (args : List UInt8) (a : Action) : Prop :=
  a = .cmd .insAt ∨ a = .cmd .modAt → str2Idx args = -1 ∨ blank args < nul args

/-- The actions that come back. -/
def Returns (env : Env) (s : State) (args : List UInt8) : Action → Prop
  | .cmd name => Keeps s (env,args,name)
  | .quit | .writeQuit => Safe s args .w
  | _ => True

theorem length_takeWhile_le {p q : UInt8 → Bool} (h : ∀ c, p c → q c) (l : List UInt8) :
    (l.takeWhile p).length ≤ (l.takeWhile q).length := by
  induction l with
  | nil => rfl
  | cons c l ih =>
    rw [takeWhile_cons,takeWhile_cons]
    by_cases hp : p c
    · simpa [hp,h c hp] using ih
    · simp [hp]

theorem byteAt_nul (args : List UInt8) : byteAt args (nul args) = 0 := by
  induction args with
  | nil => rfl
  | cons c args ih =>
    by_cases hc : c = 0
    · simp [nul,byteAt,hc]
    · simpa [nul,byteAt,hc] using ih

theorem nul_drop {n : ℕ} (h : n ≤ nul args) : nul args = n + nul (args.drop n) := by
  induction n generalizing args with
  | zero => simp
  | succ n ih =>
    cases args with
    | nil => cases h
    | cons c args =>
      by_cases hc : c = 0
      · simp [nul,hc] at h
      · have hcons : nul (c :: args) = nul args + 1 := by simp [nul,hc]
        rw [drop_succ_cons,hcons,ih (by omega)]
        omega

theorem wordLength_le (args : List UInt8) : wordLength args ≤ nul args :=
  length_takeWhile_le (fun c hc => by simp [isEnd] at hc ⊢; exact hc.1.2) args

theorem textOf_le (args : List UInt8) : (textOf args).length ≤ nul args :=
  length_takeWhile_le (fun c hc => by simp at hc ⊢; exact hc.1) args

theorem str2IdxRead_le (args : List UInt8) : str2IdxRead args ≤ nul args :=
  (Nat.min_le_left _ _).trans (wordLength_le args)

theorem wordsRead_le (n : ℕ) (args : List UInt8) : wordsRead n args ≤ nul args := by
  induction n generalizing args with
  | zero => exact str2IdxRead_le args
  | succ n ih =>
    rw [wordsRead]
    split
    next => exact str2IdxRead_le args
    next =>
      split
      next => exact wordLength_le args
      next hblank =>
        have hlt : wordLength args < nul args := by
          refine Nat.lt_of_le_of_ne (wordLength_le args) fun heq => hblank fun h32 => ?_
          rw [heq,byteAt_nul] at h32
          cases h32
        rw [nul_drop hlt]
        exact Nat.add_le_add_left (ih _) _

theorem argsRead_le {a : Action} (h : Blank args a) : argsRead args a ≤ nul args := by
  have htext : (a = .cmd .insAt ∨ a = .cmd .modAt) → (if str2Idx args = -1 then str2IdxRead args
      else blank args + 1 + (textOf (args.drop (blank args + 1))).length) ≤ nul args := by
    intro ha
    split
    next => exact str2IdxRead_le args
    next hidx =>
      have hlt := (h ha).resolve_left hidx
      rw [nul_drop hlt]
      exact Nat.add_le_add_left (textOf_le _) _
  unfold argsRead
  split
  · exact textOf_le args
  · exact textOf_le args
  · exact htext (.inl rfl)
  · exact htext (.inr rfl)
  · exact wordsRead_le 1 args
  · exact wordsRead_le 2 args
  · exact str2IdxRead_le args
  · exact str2IdxRead_le args
  · exact str2IdxRead_le args
  · split
    · exact Nat.zero_le _
    · next h0 => exact Nat.pos_of_ne_zero fun hn => h0 (hn ▸ byteAt_nul args)
  · exact Nat.le_refl _
  · exact Nat.le_refl _
  all_goals exact Nat.zero_le _

variable {line rest old : List UInt8}

theorem wordLength_input : wordLength (line ++ 0 :: rest) = wordLength line := by
  have hstop : (0 :: rest).takeWhile (fun c => !isEnd c) = [] := rfl
  rw [wordLength,takeWhile_append,hstop,wordLength]
  split
  next h => rw [append_nil,h]
  next => rfl

theorem argText_lt (h : 10 ∈ line.drop (wordLength line + 1)) :
    (argText line).length < (line.drop (wordLength line + 1)).length := by
  refine Nat.lt_of_le_of_ne ( takeWhile_prefix _).length_le fun hall => ?_
  rw [← ( takeWhile_prefix (· != 10)).eq_of_length hall] at h
  simpa using mem_takeWhile_imp h

theorem argText_input (h : 10 ∈ line.drop (wordLength line + 1)) :
    argText (line ++ 0 :: rest) = argText line := by
  have hlt := argText_lt h
  rw [length_drop] at hlt
  rw [argText,wordLength_input,drop_append_of_le_length (by omega),takeWhile_append]
  exact if_neg (argText_lt h).ne

theorem byteAt_input :
    byteAt (line ++ 0 :: rest) (wordLength line) = byteAt line (wordLength line) := by
  have hle : wordLength line ≤ line.length := ( takeWhile_prefix _).length_le
  unfold byteAt
  rcases Nat.lt_or_eq_of_le hle with hlt | heq
  · rw [getD_append _ _ _ _ hlt]
  · simp [heq]

/-- A line that fits stays in `input`, `name` and `args`. -/
theorem cmdLoopUses_le (rest : List UInt8) (h : Fits line) : (cmdLoopUses (line ++ 0 :: rest)).1 ≤ line.length ∧
    (cmdLoopUses (line ++ 0 :: rest)).2.1 < 5 ∧
    (cmdLoopUses (line ++ 0 :: rest)).2.2 < COMMAND_MAX_LEN - 5 := by
  have hle : wordLength line ≤ line.length := ( takeWhile_prefix _).length_le
  have hmax : COMMAND_MAX_LEN = 200 := rfl
  rw [cmdLoopUses,wordLength_input,byteAt_input]
  split
  next hname =>
    dsimp only
    omega
  next hname =>
    split
    next =>
      dsimp only
      omega
    next hblank =>
      obtain ⟨hmem,hlen⟩ := h (by omega) (not_not.1 hblank)
      have hrest := argText_lt hmem
      rw [length_drop] at hrest
      rw [argText_input hmem]
      dsimp only
      omega

theorem quit_isSome (h : Linked s L) (hfit : ∀ a ∈ L, (s.content a).length + 1 < BUF_LINE_LENGTH)
    (answer : List UInt8) : (quit env s answer).isSome := by
  have hsave : (saveFile env s).isSome := by
    cases hopen : env.opens
    · rw [saveFile,hopen]
      rfl
    · rw [h.saveFile hfit hopen]
      rfl
  unfold quit
  repeat' split
  all_goals simp [hsave]

theorem execute_isSome (hs : Consistent s) {a : Action} (h : Returns env s args a) (env' : Env)
    (answer : List UInt8) : (execute env env' s args answer a).isSome := by
  obtain ⟨L,hL,hc⟩ := hs
  have hfit (hw : Safe s args .w) : ∀ b ∈ L, (s.content b).length + 1 < BUF_LINE_LENGTH :=
    fun b hb => hw b (hL.used b (mem_path hb)).1
  cases a with
  | cmd name =>
    obtain ⟨s',hs',-⟩ := consistent_step (c := (env,args,name)) ⟨L,hL,hc⟩ h.1 h.2
    rw [execute,show cmdExec env s args name = some s' from hs']
    rfl
  | help => rfl
  | quit => simpa [execute] using quit_isSome hL (hfit h) answer
  | writeQuit =>
    rw [execute,cmdExec]
    cases hopen : env.opens
    · rw [saveFile,hopen]
      simpa using quit_isSome hL (hfit h) answer
    · rw [hL.saveFile (hfit h) hopen]
      rfl
  | unknown => rfl

end Buffers

section Paths

/-- Where a path is stored: in the argument of `main`, or in the buffer `args`. -/
inductive Path where
  | main | args
  deriving DecidableEq

structure Paths where
  args : List UInt8
  oriPath : Path
  /-- what the last `w` or `wq` with a path was given -/
  chosen : List UInt8

variable (main : List UInt8)

def Paths.read (x : Paths) : Path → List UInt8
  | .main => main
  | .args => x.args.takeWhile (· != 0)

/-- `saveFile(filePath)` with the string that it opens. -/
def Paths.saveFile (x : Paths) (filePath : Path) : Paths × List UInt8 :=
  let filePath := if x.read main filePath = [] then x.oriPath else filePath
  ({ x with oriPath := filePath },x.read main filePath)

/-- The line in `args`, and in `chosen` the path of `w` and `wq`. -/
def Paths.enter (x : Paths) (line : List UInt8) : Action × Paths :=
  let r := request (line ++ [0]) x.args
  let path := r.2.takeWhile (· != 0)
  (r.1,{ x with
    args := r.2
    chosen := if (r.1 = .cmd .w ∨ r.1 = .writeQuit) ∧ path ≠ [] then path else x.chosen })

/-- A round of `cmdLoop` with the paths that it opens, where `confirmed` is whether `quit` asks and
is told to save. -/
def Paths.round (x : Paths) (line : List UInt8) (confirmed : Bool) : Paths × List (List UInt8) :=
  let r := x.enter line
  match r.1 with
  | .cmd .w =>
    let w := r.2.saveFile main .args
    (w.1,[w.2])
  | .writeQuit =>
    let w := r.2.saveFile main .args
    if confirmed then
      let q := w.1.saveFile main w.1.oriPath
      (q.1,[w.2, q.2])
    else (w.1,[w.2])
  | .quit =>
    if confirmed then
      let q := r.2.saveFile main r.2.oriPath
      (q.1,[q.2])
    else (r.2,[])
  | _ => (r.2,[])

/-- The line fits, and where it saves without a path none was given before. -/
def Remembered (x : Paths) (r : List UInt8 × Bool) : Prop :=
  Fits r.1 ∧
  let y := x.enter r.1
  ((y.1 = .cmd .w ∨ y.1 = .writeQuit) ∧ y.2.read main .args = [] ∨ y.1 = .quit) → x.oriPath = .main

variable {main}

theorem Paths.saveFile_oriPath (x : Paths) :
    x.saveFile main x.oriPath = (x,x.read main x.oriPath) := by
  rw [Paths.saveFile,ite_self]

/-- `w` opens the path that is chosen, and `quit` would open it again. -/
theorem Paths.saveFile_args (x : Paths)
    (h : x.read main .args = [] → x.oriPath = .main ∧ x.chosen = main)
    (h' : x.read main .args ≠ [] → x.chosen = x.read main .args) :
    ∃ p, x.saveFile main .args = ({ x with oriPath := p },x.chosen) ∧ x.read main p = x.chosen ∧
      (p = .main → x.chosen = main) := by
  rw [Paths.saveFile]
  split
  next hnil =>
    obtain ⟨hp,hc⟩ := h hnil
    rw [hp]
    exact ⟨.main,by rw [hc]; rfl,hc.symm,fun _ => hc⟩
  next hpath => exact ⟨.args,by rw [h' hpath],(h' hpath).symm,nofun⟩

/-- A round opens the path that is chosen, and the pointer stays at that of `main` only while this
is the one. -/
theorem Paths.round_chosen {x : Paths} {line : List UInt8} {confirmed : Bool}
    (hx : x.oriPath = .main → x.chosen = main) (hr : Remembered main x (line,confirmed)) :
    (∀ p ∈ (x.round main line confirmed).2, p = (x.round main line confirmed).1.chosen) ∧
    ((x.round main line confirmed).1.oriPath = .main →
      (x.round main line confirmed).1.chosen = main) := by
  obtain ⟨-,hr⟩ := hr
  have hori : (x.enter line).2.oriPath = x.oriPath := rfl
  have hpath : ((x.enter line).1 = .cmd .w ∨ (x.enter line).1 = .writeQuit) ∧
      (x.enter line).2.read main .args ≠ [] →
      (x.enter line).2.chosen = (x.enter line).2.read main .args := fun h => if_pos h
  have hkeep : ¬ (((x.enter line).1 = .cmd .w ∨ (x.enter line).1 = .writeQuit) ∧
      (x.enter line).2.read main .args ≠ []) → (x.enter line).2.chosen = x.chosen :=
    fun h => if_neg h
  rw [Paths.round]
  generalize x.enter line = y at *
  obtain ⟨a,y⟩ := y
  dsimp only at *
  have hsave (ha : a = .cmd .w ∨ a = .writeQuit) := y.saveFile_args
    (fun hnil => by
      have hmain := hr (.inl ⟨ha,hnil⟩)
      exact ⟨hori.trans hmain,(hkeep fun hc => hc.2 hnil).trans (hx hmain)⟩)
    fun hne => hpath ⟨ha,hne⟩
  split
  next =>
    obtain ⟨p,hp,-,hmain⟩ := hsave (.inl rfl)
    rw [hp]
    exact ⟨by simp,hmain⟩
  next =>
    obtain ⟨p,hp,hread,hmain⟩ := hsave (.inr rfl)
    rw [hp]
    split
    next =>
      rw [Paths.saveFile_oriPath]
      refine ⟨?_,hmain⟩
      cases p <;> simpa [Paths.read] using hread
    next => exact ⟨by simp,hmain⟩
  next =>
    have hc : y.chosen = x.chosen := hkeep (by simp)
    have hmain := hr (.inr rfl)
    split
    next =>
      rw [Paths.saveFile_oriPath]
      refine ⟨?_,fun _ => hc.trans (hx hmain)⟩
      simp [hori,hmain,hc,hx hmain,Paths.read]
    next => exact ⟨by simp,fun h => hc.trans (hx (hori ▸ h))⟩
  next hw hq _ => exact ⟨by simp,fun h => (hkeep fun hc => hc.1.elim hw hq).trans (hx (hori ▸ h))⟩

/-- Over any rounds that save without a path only before one was given, what is opened is the path
that was chosen last. -/
theorem saves_to_chosen {x : Paths} (h : Machine.Reach
      (fun x (r : List UInt8 × Bool) => some (Paths.round main x r.1 r.2).1) (Remembered main)
      ⟨List.replicate (COMMAND_MAX_LEN - 5) 0,.main,main⟩ x)
    {line : List UInt8} {confirmed : Bool} (hr : Remembered main x (line,confirmed)) :
    ∀ p ∈ (x.round main line confirmed).2, p = (x.round main line confirmed).1.chosen := by
  refine (Paths.round_chosen (h.invariant (I := fun x => x.oriPath = .main → x.chosen = main)
    (fun _ => rfl) ?_) hr).1
  rintro x x' r hx hr hstep
  cases hstep
  exact (Paths.round_chosen hx hr).2

/-- `w` and then `w b`. -/
theorem saves_to_chosen_path :
    let x := (Paths.round [97] ⟨List.replicate 195 0,.main,[97]⟩ [119, 10] false).1
    ∀ p ∈ (x.round [97] [119, 32, 98, 10] false).2, p = [98] := by
  have hfits : Fits [119, 10] ∧ Fits [119, 32, 98, 10] := by
    unfold Fits
    decide +kernel
  exact saves_to_chosen (.step .init (m := ([119, 10],false)) ⟨hfits.1,fun _ => rfl⟩ rfl)
    ⟨hfits.2,by decide +kernel⟩

/-- `w b` and then `w`: the pointer is into `args`, where the string is gone. -/
theorem path_forgotten :
    let x := (Paths.round [97] ⟨List.replicate 195 0,.main,[97]⟩ [119, 32, 98, 10] false).1
    (x.round [97] [119, 10] false).2 = [[]] ∧ (x.round [97] [119, 10] false).1.chosen = [98] := by
  decide +kernel

end Paths
end Xv6.Editor
