import Xv6.Sys.State

/-! # The buffer cache: `bread`, `bwrite`, `brelse`

`bget` and `iderw` show in the contents of the blocks only through these three. -/
namespace Xv6
open Conc Function

namespace Fs

def iderwRead (b : ℕ) : Fs Unit :=
  if b ≥ FSSIZE then panic .incorrectBlockno else Prog.modify fun s => s.fill b

def iderwWrite (b : ℕ) : Fs Unit :=
  if b ≥ FSSIZE then panic .incorrectBlockno else Prog.modify fun s => s.flush b

def bread (b : ℕ) : Fs Unit := do
  acquiresleep (.buf b)
  if (← Prog.gets fun s => s.cache.get b).isNone then iderwRead b

def bwrite (b : ℕ) : Fs Unit := do
  panicIf (!(← holdingsleep (.buf b))) .bwrite
  iderwWrite b

def brelse (b : ℕ) : Fs Unit := do
  panicIf (!(← holdingsleep (.buf b))) .brelse
  releasesleep (.buf b)

end Fs

section Run
variable {p : ℕ} {E : Stops} {Q : Unit → KCfg → Prop} {c : KCfg} {b : ℕ}

theorem safe_view {Q : View → KCfg → Prop} : Conc.Safe p E Fs.view Q c ↔ Q c.st.view c := Iff.rfl

theorem safe_data {Q : Block → KCfg → Prop} :
    Conc.Safe p E (Fs.data b) Q c ↔ Q (c.st.content b) c := Iff.rfl

theorem safe_setData {x : Block} :
    Conc.Safe p E (Fs.setData b x) Q c ↔ Q () { c with st := c.st.setData b x } := Iff.rfl

theorem safe_logSection {α : Type} {Q : α → KCfg → Prop} {f : Log → α × Log} :
    Conc.Safe p E (Fs.logSection f) Q c ↔
      Q (f c.st.log).1 { c with st := { c.st with log := (f c.st.log).2 } } := Iff.rfl

/-- What `bread` does to the whole state: nothing that a later `bread` shows. -/
theorem safe_bread (hb : b < FSSIZE) (ho : c.owner (.buf b) = none)
    (h : ∀ c' : KCfg, c'.st.view = c.st.view → c'.st.disk = c.st.disk →
      c'.st.writes = c.st.writes → c'.owner = update c.owner (.buf b) (some p) → Q () c') :
    Conc.Safe p E (Fs.bread b) Q c := by
  unfold Fs.bread
  rw [safe_bind]
  refine (safe_lock _ ho).mpr ?_
  rw [safe_bind,safe_gets]
  change Conc.Safe p E (if (c.st.cache.get b).isNone = true then _ else _) Q _
  by_cases hc : (c.st.cache.get b).isNone = true
  · rw [if_pos hc]
    unfold Fs.iderwRead
    rw [if_neg (by omega)]
    exact h _ (Sys.view_fill c.st b) rfl rfl (Cfg.owner_take c _ p)
  · rw [if_neg hc]
    exact h _ rfl rfl rfl (Cfg.owner_take c _ p)

theorem safe_bwrite (hb : b < FSSIZE) (ho : c.owner (.buf b) = some p)
    (h : Q () { c with st := c.st.flush b }) : Conc.Safe p E (Fs.bwrite b) Q c := by
  unfold Fs.bwrite
  rw [safe_bind]
  refine (safe_holds _).mpr ?_
  rw [safe_bind]
  rw [ho,decide_eq_true rfl]
  refine (safe_pure ()).mpr ?_
  unfold Fs.iderwWrite
  rw [if_neg (by omega)]
  exact h

theorem safe_brelse (ho : c.owner (.buf b) = some p)
    (h : ∀ c' : KCfg, c'.st = c.st → c'.owner = update c.owner (.buf b) none → Q () c') :
    Conc.Safe p E (Fs.brelse b) Q c := by
  unfold Fs.brelse
  rw [safe_bind]
  refine (safe_holds _).mpr ?_
  rw [safe_bind]
  rw [ho,decide_eq_true rfl]
  refine (safe_pure ()).mpr ?_
  exact h _ rfl (Cfg.owner_drop c _)

end Run

namespace Fs
section View
variable {p : ℕ} {E : Stops} {Q : Post Unit}
  {v : View} {o : Owners} {b : ℕ}

theorem Safe.bread (hb : b < FSSIZE) (ho : o (.buf b) = none)
    (h : Q () v (update o (.buf b) (some p))) : Safe p E (Fs.bread b) Q v o := by
  intro c hv hco
  subst hv hco
  refine safe_bread hb ho ?_
  rintro c' hv - - ho'
  rw [hv,ho']
  exact h

theorem Safe.bwrite (hb : b < FSSIZE) (ho : o (.buf b) = some p) (h : Q () v o) :
    Safe p E (Fs.bwrite b) Q v o := by
  intro c hv hco
  subst hv hco
  exact safe_bwrite hb ho ((Sys.view_flush c.st b).symm ▸ h)

theorem Safe.brelse (ho : o (.buf b) = some p) (h : Q () v (update o (.buf b) none)) :
    Safe p E (Fs.brelse b) Q v o := by
  intro c hv hco
  subst hv hco
  refine safe_brelse ho ?_
  rintro c' hst ho'
  rw [hst,ho']
  exact h

theorem Safe.release (ho : o (.buf b) = none) (h : Q () v o) :
    Safe p E (Fs.brelse b) Q v (update o (.buf b) (some p)) := by
  refine brelse (update_self ..) ?_
  rwa [Cfg.update_owner_none p ho]

end View
end Fs
end Xv6
