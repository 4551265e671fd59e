import Xv6.Sys.Boot

/-! # Path resolution

`namei` and `nameiparent` as a fold of directory lookups. -/
namespace Xv6
open Conc

namespace Fs
section Resolution
variable {p i : ℕ} {path : List UInt8} {np : Bool}

/-- `namex` in a file system at rest, with two slots of the inode cache free: it changes
nothing but the reference to the inode that it returns. -/
theorem namex_returns (np : Bool) {c : KCfg} (h : DirTree c.st.view) (ho : c.owner = held p ∅)
    (hs : (usedSlots c.st.view).card + 2 ≤ NINODE) (hi : StartsAt c.st.view p path i)
    (hal : files c.st.content i ≠ none) :
    ∃ r c', run p (Fs.namex p path np) c = .ok (r,c') ∧ c'.owner = c.owner ∧
      c'.st.view = { c.st.view with inode := c'.st.view.inode } ∧
      Resolved c.st.view np i (components path) r c'.st.view := by
  -- the start is unique
  have huniq : ∀ a, StartsAt c.st.view p path a → a = i := by
    intro a ha
    unfold StartsAt at ha hi
    split at ha
    · rw [if_pos ‹_›] at hi
      rw [ha,hi]
    · rw [if_neg ‹_›] at hi
      rw [← ha.inum,hi.inum]
  have hstart : HasStart (fun _ => False) c.st.view p path :=
    ⟨⟨i,hi⟩,fun a ha => .inr (huniq a ha ▸ hal)⟩
  have hsafe : Safe p (fun _ => False) (Fs.namex p path np) (fun r v' o' => o' = c.owner ∧
      v' = { c.st.view with inode := v'.inode } ∧
      Resolved c.st.view np i (components path) r v') c.st.view c.owner := by
    rw [ho]
    refine Safe.namex h.core (h.tree _) (.inr hs) (.inl h.quiet) hstart fun a r v' ha hr => ?_
    obtain rfl := huniq a ha
    refine ⟨rfl,?_,hr⟩
    cases r with
    | none => exact (hr.fail rfl).1.quiet h.quiet
    | some kn =>
      obtain ⟨a,hw,-⟩ := hr.found kn.1 kn.2 rfl
      exact hw.quiet h.quiet
  exact Safe.returns hsafe

/-- `namei` is the fold of directory lookup over the elements of the path, and
`nameiparent` the fold over all but the last, where that is a directory. -/
theorem path_resolution {c : KCfg} (h : DirTree c.st.view) (ho : ∀ l, c.owner l = none)
    (hs : (usedSlots c.st.view).card + 2 ≤ NINODE) (hi : StartsAt c.st.view p path i)
    (hal : files c.st.content i ≠ none) :
    (∃ r c', run p (Fs.namei p path) c = .ok (r,c') ∧ (∀ l, c'.owner l = none) ∧
      c'.st.view = { c.st.view with inode := c'.st.view.inode } ∧
      ((components path).foldlM (dirLookup (files c.st.content)) i = none →
        r = none ∧ ∀ a, refs c'.st.view a = refs c.st.view a) ∧
      ∀ d, (components path).foldlM (dirLookup (files c.st.content)) i = some d →
        ∃ k, r = some k ∧ Holds c'.st.view k d ∧
          ∀ a, refs c'.st.view a = refs c.st.view a + if a = d then 1 else 0) ∧
    ∃ r c', run p (Fs.nameiparent p path) c = .ok (r,c') ∧ (∀ l, c'.owner l = none) ∧
      c'.st.view = { c.st.view with inode := c'.st.view.inode } ∧
      ((¬ ∃ name d, (components path).getLast? = some name ∧
          (components path).dropLast.foldlM (dirLookup (files c.st.content)) i = some d ∧
          IsDir (files c.st.content) d) → r = none ∧ ∀ a, refs c'.st.view a = refs c.st.view a) ∧
      ∀ name d, (components path).getLast? = some name →
        (components path).dropLast.foldlM (dirLookup (files c.st.content)) i = some d →
        IsDir (files c.st.content) d → ∃ k, r = some (k,name) ∧ Holds c'.st.view k d ∧
          ∀ a, refs c'.st.view a = refs c.st.view a + if a = d then 1 else 0 := by
  have ho' : c.owner = held p ∅ := by
    rw [held_empty]
    exact funext ho
  have hq := h.quiet
  refine ⟨?_,?_⟩
  · obtain ⟨r,c',hrun,hown,hrest,hr⟩ := namex_returns false h ho' hs hi hal
    have hrun' : run p (Fs.namei p path) c = .ok (r.map Prod.fst,c') := by
      change run p ((Fs.namex p path false).bind fun r => pure (r.map Prod.fst)) c = _
      rw [run_bind,hrun]
      rfl
    refine ⟨r.map Prod.fst,c',hrun',fun l => by rw [hown]; exact ho l,hrest,?_⟩
    cases r with
    | none =>
      obtain ⟨hw,hwalk⟩ := hr.fail rfl
      have := hwalk hq
      rw [walkPath_false,Option.map_eq_none_iff] at this
      change List.foldlM (dirLookup (files c.st.content)) i _ = none at this
      rw [this]
      refine ⟨fun _ => ⟨rfl,fun a => ?_⟩,nofun⟩
      rw [hw.refs,Pi.zero_apply,add_zero]
    | some kn =>
      obtain ⟨a,hw,hk,-,hwalk⟩ := hr.found kn.1 kn.2 rfl
      have := hwalk hq
      rw [walkPath_false,Option.map_eq_some_iff] at this
      obtain ⟨b,hb,hab⟩ := this
      obtain ⟨rfl,-⟩ := Prod.ext_iff.mp hab
      change List.foldlM (dirLookup (files c.st.content)) i _ = some _ at hb
      rw [hb]
      refine ⟨nofun,?_⟩
      rintro _ ⟨rfl⟩
      exact ⟨kn.1,rfl,hk,fun x => hw.refs x⟩
  · obtain ⟨r,c',hrun,hown,hrest,hr⟩ := namex_returns true h ho' hs hi hal
    refine ⟨r,c',hrun,fun l => by rw [hown]; exact ho l,hrest,?_⟩
    cases r with
    | none =>
      obtain ⟨hw,hwalk⟩ := hr.fail rfl
      refine ⟨fun _ => ⟨rfl,fun a => ?_⟩,fun name d h1 h2 h3 => ?_⟩
      · rw [hw.refs,Pi.zero_apply,add_zero]
      · have := walkPath_true.mpr ⟨h1,h2,h3⟩
        rw [show files c.st.content = files c.st.view.disk from rfl,hwalk hq] at this
        cases this
    | some kn =>
      obtain ⟨a,hw,hk,-,hwalk⟩ := hr.found kn.1 kn.2 rfl
      obtain ⟨h1,h2,h3⟩ := walkPath_true.mp (hwalk hq)
      refine ⟨fun hc => absurd ⟨kn.2,a,h1,h2,h3⟩ hc,fun name d h4 h5 _ => ?_⟩
      obtain rfl : kn.2 = name := by
        rw [h1] at h4
        exact Option.some.inj h4
      obtain rfl : a = d := by
        change List.foldlM (dirLookup (files c.st.content)) i _ = some a at h2
        rw [h2] at h5
        exact Option.some.inj h5
      exact ⟨kn.1,rfl,hk,fun x => hw.refs x⟩

end Resolution

/-- The state after boot, but with all slots of the inode cache in use. -/
def crowded : KCfg :=
  { started sample with
    st :=
      { (started sample).st with
        inode := .ofFun fun k => ⟨if k = 0 then ROOTINO else 100 + k,1,false,default⟩ } }

theorem dirTree_crowded : DirTree crowded.st.view := by
  have h := dirTree_started fresh_sample
  have hinum : ∀ k i, Holds crowded.st.view k i → (if k = 0 then ROOTINO else 100 + k) = i :=
    fun k i hk => hk.inum
  refine ⟨⟨⟨h.core.ready.sb,h.core.ready.block,h.core.ready.log⟩,h.core.sound,?_,?_,?_,?_⟩,
    h.root,h.aligned,h.alloc,?_⟩
  · intro k _
    exact Int.one_nonneg
  · intro k i hk
    have hlt := hk.slot
    rw [← hinum k i hk]
    have hN : NINODE = 50 := rfl
    have hM : Mkfs.NINODES = 200 := rfl
    split
    · decide
    · omega
  · intro k k' i hk hk'
    have h1 := hinum k i hk
    have h2 := hinum k' i hk'
    have hR : ROOTINO = 1 := rfl
    split at h1 <;> split at h2 <;> omega
  · intro k i _ hv
    cases hv
  · intro i n hn h0
    rw [nlink_fresh fresh_sample hn] at h0
    exact absurd h0 (by decide)

/-- In "/f/x" the element before the last is a file: `nameiparent` returns 0 although the
walk along all elements but the last succeeds.  And where all slots of the inode cache
are in use, `namei` stops the machine. -/
theorem nameiparent_of_file : (DirTree (started sample).st.view ∧
      (components [47, 102, 47, 120]).getLast? = some [120] ∧
      (components [47, 102, 47, 120]).dropLast.foldlM
        (dirLookup (files (started sample).st.content)) ROOTINO = some 2 ∧
      ∃ c', run 0 (Fs.nameiparent 0 [47, 102, 47, 120]) (started sample) = .ok (none,c')) ∧
    DirTree crowded.st.view ∧
      run 0 (Fs.namei 0 [47, 102]) crowded = .error (.fail .igetNoInodes) := by
  refine ⟨⟨dirTree_started fresh_sample,by decide,by decide +kernel,
    exists_eq_ok_of_value? ?_⟩,dirTree_crowded,eq_error_of_stop? ?_⟩
  · decide +kernel
  · decide +kernel

/-- After boot, "/f" is the first file. -/
theorem path_resolution_sample : ∃ k c', run 0 (Fs.namei 0 [47, 102]) (started sample) =
      .ok (some k,c') ∧ Holds c'.st.view k 2 ∧ refs c'.st.view 2 = 1 := by
  have hcard := card_usedSlots_started (d := sample)
  have hN : NINODE = 50 := rfl
  obtain ⟨⟨r,c',hrun,-,-,-,hsome⟩,-⟩ := path_resolution (dirTree_started fresh_sample)
    (fun _ => rfl) (by omega) (startsAt_started [47, 102]) (dirTree_started fresh_sample).root
  obtain ⟨k,rfl,hk,href⟩ := hsome 2 (by decide +kernel)
  refine ⟨k,c',hrun,hk,(href 2).trans ?_⟩
  have h0 : ¬ 0 < refs (started sample).st.view 2 := by
    rw [(core_started fresh_sample).refs_pos]
    rintro ⟨j,hj⟩
    exact absurd (holds_started.mp hj).2 (by decide)
  have := (core_started fresh_sample).refs_nonneg 2
  rw [if_pos rfl]
  omega

end Fs
end Xv6
