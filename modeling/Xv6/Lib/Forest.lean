import Mathlib.Logic.Basic

/-! # Parent pointers that lead to a root -/
namespace Forest

variable {V : Type} {parent parent' : V → Option V} {root v : V}

/-- The parent pointers lead from a vertex to the root. -/
inductive Reaches (parent : V → Option V) (root : V) : V → Prop where
  | root : Reaches parent root root
  | up {v u : V} (h : parent v = some u) (hu : Reaches parent root u) : Reaches parent root v

/-- Some vertices are hung under the root. -/
theorem Reaches.redirect (h : Reaches parent root v)
    (hp : ∀ v, parent' v = parent v ∨ parent' v = some root) : Reaches parent' root v := by
  induction h with
  | root => exact .root
  | @up v u hv _ ih =>
    rcases hp v with he | he
    · exact .up (he.trans hv) ih
    · exact .up he .root

/-- The pointers of vertices that are nobody's parents may change: `L` are the others. -/
theorem Reaches.congr {L : V → Prop} (h : Reaches parent root v) (hv : v = root ∨ L v)
    (hp : ∀ v, L v → parent' v = parent v)
    (hup : ∀ v u, L v → parent v = some u → u = root ∨ L u) : Reaches parent' root v := by
  induction h with
  | root => exact .root
  | @up v u hvu _ ih =>
    rcases hv with rfl | hv
    · exact .root
    · exact .up ((hp v hv).trans hvu) (ih (hup v u hv hvu))

theorem Reaches.ne_self (h : Reaches parent root v) (hv : v ≠ root) : parent v ≠ some v := by
  induction h with
  | root => exact absurd rfl hv
  | @up v u hvu _ ih =>
    intro hself
    have hu : u = v := Option.some.inj (hvu.symm.trans hself)
    exact ih (hu ▸ hv) (hu ▸ hself)

end Forest
