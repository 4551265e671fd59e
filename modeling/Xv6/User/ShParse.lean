import Xv6.User.ShComplete

/-! # `parsecmd` accepts the grammar

The pointer stays in the line, the NULs end the words of the tree, and so `parsecmd` returns the
trees of the sentences of `line`, with their words as strings. -/
namespace Xv6.Sh
open List

section Stays
variable {α β : Type} (s : List UInt8)

/-- The pointer stays in the line. -/
def Stays (p : Parser α) : Prop :=
  ∀ i a j, i ≤ s.length → p i = .ok (a,j) → j ≤ s.length

variable {s}

theorem Stays.pure (a : α) : Stays s (pure a) := by
  rintro i b j hi ⟨⟩
  exact hi

theorem Stays.throw (e : Error) : Stays s (throw e : Parser α) := by
  rintro i b j hi ⟨⟩

theorem Stays.bind {p : Parser α} {g : α → Parser β} (hp : Stays s p) (hg : ∀ a, Stays s (g a)) :
    Stays s (p >>= g) := by
  intro i b j hi h
  cases hpi : p i with
  | ok r =>
    rw [bind_ok (a := r.1) (j := r.2) hpi] at h
    exact hg _ _ _ _ (hp _ _ _ hi hpi) h
  | error e => simp [Bind.bind,StateT.bind,hpi,Except.bind] at h

theorem Stays.ite {c : Prop} [Decidable c] {p q : Parser α} (hp : Stays s p) (hq : Stays s q) :
    Stays s (if c then p else q) := by
  split
  · exact hp
  · exact hq

theorem peek_stays (toks : List Char) : Stays s (peek s toks) := by
  rintro i a j hi ⟨⟩
  exact length_skipWhile hi

theorem tokenAt_le {q : ℕ} (hq : q ≤ s.length) : (tokenAt s q).2 ≤ s.length := by
  have hlt : ∀ k, k ≤ s.length → charAt s k ≠ 0 → k < s.length := by
    intro k hk h
    by_contra hge
    exact h (by simp [charAt,show s.length ≤ k by omega])
  unfold tokenAt
  split
  · exact hq
  next h0 =>
  have hq' := hlt q hq h0
  split
  · split
    next h => 
      have := hlt (q + 1) hq' (by rw [h]; decide)
      exact this
    · exact hq'
  · split
    · exact hq'
    · exact length_skipWhile hq

theorem gettoken_stays : Stays s (gettoken s) := by
  rintro i a j hi ⟨⟩
  exact length_skipWhile (tokenAt_le (length_skipWhile hi))

theorem parseredirs_stays (fuel : ℕ) (cmd : Cmd Span) : Stays s (parseredirs s fuel cmd) := by
  induction fuel generalizing cmd with
  | zero => exact .throw _
  | succ fuel ih =>
    apply (peek_stays _).bind fun b => .ite (gettoken_stays.bind fun t => ?_) (.pure _)
    exact gettoken_stays.bind fun w => .ite (ih _) (.throw _)

theorem parseargs_stays (fuel argc : ℕ) (ret : Cmd Span) : Stays s (parseargs s fuel argc ret) := by
  induction fuel generalizing argc ret with
  | zero => exact .throw _
  | succ fuel ih =>
    apply (peek_stays _).bind fun b => .ite (.pure _) (gettoken_stays.bind fun t => ?_)
    apply Stays.ite (.pure _) (.ite (.throw _) (.ite (.throw _) ?_))
    exact (parseredirs_stays _ _).bind fun c => ih _ _

theorem parsebacks_stays (fuel : ℕ) (cmd : Cmd Span) : Stays s (parsebacks s fuel cmd) := by
  induction fuel generalizing cmd with
  | zero => exact .throw _
  | succ fuel ih =>
    exact (peek_stays _).bind fun b => .ite (gettoken_stays.bind fun t => ih _) (.pure _)

theorem parsers_stay (fuel : ℕ) : Stays s (parseline s fuel) ∧ Stays s (parsepipe s fuel) ∧
    Stays s (parseexec s fuel) ∧ Stays s (parseblock s fuel) := by
  induction fuel with
  | zero => exact ⟨.throw _,.throw _,.throw _,.throw _⟩
  | succ fuel ih =>
    obtain ⟨hline,hpipe,hexec,hblock⟩ := ih
    refine ⟨?_,?_,?_,?_⟩
    · apply hpipe.bind fun c => (parsebacks_stays _ _).bind fun d => ?_
      exact (peek_stays _).bind fun b =>
        .ite (gettoken_stays.bind fun t => hline.bind fun e => .pure _) (.pure _)
    · apply hexec.bind fun c => (peek_stays _).bind fun b => ?_
      exact .ite (gettoken_stays.bind fun t => hpipe.bind fun e => .pure _) (.pure _)
    · apply (peek_stays _).bind fun b => .ite hblock ?_
      exact (parseredirs_stays _ _).bind fun c => parseargs_stays _ _ _
    · apply (peek_stays _).bind fun b => .ite (gettoken_stays.bind fun t => ?_) (.throw _)
      apply hline.bind fun c => (peek_stays _).bind fun b' => ?_
      exact .ite (gettoken_stays.bind fun t => parseredirs_stays _ _) (.throw _)

end Stays

section Nulterminate
variable {s : List UInt8}

theorem charAt_set (buf : List UInt8) (k i : ℕ) :
    charAt (buf.set k 0) i = if k = i then 0 else charAt buf i := by
  simp only [charAt,getD_eq_getElem?_getD,List.getElem?_set]
  split
  · split <;> rfl
  · rfl

theorem charAt_setAll (argv : List Span) (buf : List UInt8) (i : ℕ) :
    charAt (argv.foldl (fun buf w => buf.set w.eq 0) buf) i =
      if ∃ w ∈ argv, w.eq = i then 0 else charAt buf i := by
  induction argv generalizing buf with
  | nil => simp
  | cons v argv ih =>
    rw [foldl_cons,ih,charAt_set]
    by_cases h : ∃ w ∈ argv, w.eq = i <;> by_cases hv : v.eq = i <;> simp [h,hv]

theorem length_nulterminate (c : Cmd Span) (buf : List UInt8) :
    (nulterminate c buf).length = buf.length := by
  induction c generalizing buf with
  | exec argv =>
    rw [nulterminate]
    induction argv generalizing buf with
    | nil => rfl
    | cons v argv ih => simpa using ih (buf.set v.eq 0)
  | redir cmd file mode fd ih => simpa [nulterminate] using ih buf
  | pipe left right ih ih' => rw [nulterminate,ih',ih]
  | list left right ih ih' => rw [nulterminate,ih',ih]
  | back cmd ih => exact ih buf

/-- Bytes behind which no word ends are kept. -/
theorem charAt_nulterminate_of_ne {c : Cmd Span} {i : ℕ} (h : c.All fun w => w.eq ≠ i)
    (buf : List UInt8) : charAt (nulterminate c buf) i = charAt buf i := by
  induction c generalizing buf with
  | exec argv =>
    rw [nulterminate,charAt_setAll,if_neg]
    rintro ⟨w,hw,rfl⟩
    exact h w hw rfl
  | redir cmd file mode fd ih => rw [nulterminate,charAt_set,if_neg h.2,ih h.1]
  | pipe left right ih ih' => rw [nulterminate,ih' h.2,ih h.1]
  | list left right ih ih' => rw [nulterminate,ih' h.2,ih h.1]
  | back cmd ih => exact ih h buf

theorem charAt_nulterminate_of_zero (c : Cmd Span) {i : ℕ} {buf : List UInt8}
    (h : charAt buf i = 0) : charAt (nulterminate c buf) i = 0 := by
  induction c generalizing buf with
  | exec argv => rw [nulterminate,charAt_setAll,h,ite_self]
  | redir cmd file mode fd ih => rw [nulterminate,charAt_set,ih h,ite_self]
  | pipe left right ih ih' => exact ih' (ih h)
  | list left right ih ih' => exact ih' (ih h)
  | back cmd ih => exact ih h

theorem Cmd.All.imp {α : Type} {p q : α → Prop} {c : Cmd α} (h : c.All p)
    (hpq : ∀ a, p a → q a) : c.All q := by
  induction c with
  | exec argv => exact fun w hw => hpq w (h w hw)
  | redir cmd file mode fd ih => exact ⟨ih h.1,hpq _ h.2⟩
  | pipe left right ih ih' => exact ⟨ih h.1,ih' h.2⟩
  | list left right ih ih' => exact ⟨ih h.1,ih' h.2⟩
  | back cmd ih => exact ih h

/-- A NUL stands behind every word of the tree. -/
theorem nulterminate_ends (c : Cmd Span) (buf : List UInt8) :
    c.All fun w => charAt (nulterminate c buf) w.eq = 0 := by
  induction c generalizing buf with
  | exec argv =>
    intro w hw
    rw [nulterminate,charAt_setAll,if_pos ⟨w,hw,rfl⟩]
  | redir cmd file mode fd ih =>
    refine ⟨(ih buf).imp fun w hw => ?_,?_⟩
    · rw [nulterminate,charAt_set,hw,ite_self]
    · exact (charAt_set _ _ _).trans (if_pos rfl)
  | pipe left right ih ih' =>
    exact ⟨(ih buf).imp fun w hw => charAt_nulterminate_of_zero right hw,ih' _⟩
  | list left right ih ih' =>
    exact ⟨(ih buf).imp fun w hw => charAt_nulterminate_of_zero right hw,ih' _⟩
  | back cmd ih => exact ih buf

/-- The string at a pointer, where the bytes up to a NUL are those of the line. -/
theorem cstring_eq {buf : List UInt8} (hlen : buf.length = s.length) (n : ℕ) (q : ℕ)
    (hle : q + n ≤ s.length)
    (hsame : ∀ i, q ≤ i → i < q + n → charAt buf i = charAt s i ∧ charAt s i ≠ 0)
    (hnul : charAt buf (q + n) = 0) : cstring buf q = (s.drop q).take n := by
  induction n generalizing q with
  | zero =>
    rw [take_zero,cstring]
    rw [Nat.add_zero,charAt_eq] at hnul
    cases h : buf.drop q with
    | nil => rfl
    | cons b r =>
      rw [h,headD_cons] at hnul
      simp [hnul]
  | succ n ih =>
    have hq : q < s.length := by omega
    have hs : s.drop q = charAt s q :: s.drop (q + 1) := by
      rw [drop_eq_getElem_cons hq,charAt_of_lt hq]
    have hb : buf.drop q = charAt buf q :: buf.drop (q + 1) := by
      rw [drop_eq_getElem_cons (hlen ▸ hq),charAt_of_lt (hlen ▸ hq)]
    obtain ⟨heq,hne⟩ := hsame q (by omega) (by omega)
    have hrec := ih (q + 1) (by omega) (fun i h h' => hsame i (by omega) (by omega))
      (by rwa [Nat.add_right_comm])
    rw [cstring,hb,hs,take_succ_cons,takeWhile_cons_of_pos (by simpa [heq] using hne),
      heq,← hrec,cstring]

theorem Cmd.map_congr {α β : Type} {f g : α → β} {c : Cmd α} (h : c.All fun a => f a = g a) :
    c.map f = c.map g := by
  induction c with
  | exec argv => rw [Cmd.map,Cmd.map,map_congr_left h]
  | redir cmd file mode fd ih => rw [Cmd.map,Cmd.map,ih h.1,h.2]
  | pipe left right ih ih' => rw [Cmd.map,Cmd.map,ih h.1,ih' h.2]
  | list left right ih ih' => rw [Cmd.map,Cmd.map,ih h.1,ih' h.2]
  | back cmd ih => rw [Cmd.map,Cmd.map,ih h]

theorem Cmd.All.and {α : Type} {p q : α → Prop} {c : Cmd α} (h : c.All p) (h' : c.All q) :
    c.All fun a => p a ∧ q a := by
  induction c with
  | exec argv => exact fun w hw => ⟨h w hw,h' w hw⟩
  | redir cmd file mode fd ih => exact ⟨ih h.1 h'.1,h.2,h'.2⟩
  | pipe left right ih ih' => exact ⟨ih h.1 h'.1,ih' h.2 h'.2⟩
  | list left right ih ih' => exact ⟨ih h.1 h'.1,ih' h.2 h'.2⟩
  | back cmd ih => exact ih h h'

theorem Span.IsWord.end_ne {v w : Span} (hv : v.IsWord s) (hw : w.IsWord s) {i : ℕ}
    (hi : w.q ≤ i) (hi' : i < w.eq) : v.eq ≠ i := by
  rintro rfl
  exact hv.stops (hi'.trans_le hw.le) (hw.chars _ hi hi')

theorem cstring_nulterminate (hs : 0 ∉ s) {c : Cmd Span} (h : c.All (Span.IsWord s)) :
    c.All fun w => cstring (nulterminate c s) w.q = w.bytes s := by
  apply (h.and (nulterminate_ends c s)).imp
  rintro w ⟨hw,hnul⟩
  have hlt := hw.lt
  have hle := hw.le
  refine cstring_eq (length_nulterminate c s) (w.eq - w.q) w.q (by omega) ?_
    (by rwa [show w.q + (w.eq - w.q) = w.eq by omega])
  intro i hi hi'
  refine ⟨charAt_nulterminate_of_ne (h.imp fun v hv => hv.end_ne hw hi (by omega)) s,?_⟩
  rw [charAt_of_lt (by omega)]
  intro h0
  exact hs (h0 ▸ getElem_mem _)

/-- The strings of the tree are its words. -/
theorem strings_nulterminate (hs : 0 ∉ s) {c : Cmd Span} (h : c.All (Span.IsWord s)) :
    c.strings (nulterminate c s) = c.words s :=
  Cmd.map_congr (cstring_nulterminate hs h)

end Nulterminate

section Parsecmd
variable {s : List UInt8}

theorem tokens_eq_nil {l : List UInt8} : tokens l = [] ↔ l.dropWhile isWhitespace = [] := by
  induction l with
  | nil => simp [tokens]
  | cons c r ih =>
    by_cases hc : isWhitespace c
    · rw [tokens,if_pos hc,ih,dropWhile_cons_of_pos hc]
    · rw [tokens,if_neg hc,dropWhile_cons_of_neg hc]
      split
      · simp
      · split <;> simp

/-- Only whitespace is left when there are no more tokens. -/
theorem skipWhile_eq_length {j : ℕ} (hj : j ≤ s.length) :
    skipWhile isWhitespace s j = s.length ↔ rest s j = [] := by
  have hle : skipWhile isWhitespace s j ≤ s.length := length_skipWhile hj
  rw [rest,tokens_eq_nil,← drop_skipWhile,drop_eq_nil_iff]
  omega

theorem parsecmd_eq {c : Cmd Span} {j : ℕ} (h : parseline s (fuelFor s) 0 = .ok (c,j)) :
    parsecmd s =
      if rest s j = [] then .ok (c,nulterminate c s) else .error (.panic "syntax") := by
  have hj : j ≤ s.length := (parsers_stay _).1 0 c j (Nat.zero_le _) h
  have hline : (parseline s (fuelFor s)).run 0 = .ok (c,j) := h
  simp only [parsecmd,hline,← skipWhile_eq_length hj]
  rfl

theorem parsecmd_error {e : Error} (h : parseline s (fuelFor s) 0 = .error e) :
    parsecmd s = .error e := by
  have hline : (parseline s (fuelFor s)).run 0 = .error e := h
  simp only [parsecmd,hline]
  rfl

theorem fuelFor_enough (s : List UInt8) : NonTerm.line.fuel (rest s 0).length ≤ fuelFor s := by
  have := length_tokens s
  simp only [NonTerm.fuel,fuelFor,rest,drop_zero]
  omega

theorem parseline_outcome (hs : 0 ∉ s) :
    Outcome (fun c j => Parses s .line (tokens s) c (rest s j)) (parseline s (fuelFor s) 0) :=
  parsers_sound hs (fuelFor s) .line 0 (fuelFor_enough s)

theorem parsecmd_ok (hs : 0 ∉ s) {c : Cmd Span} {buf : List UInt8}
    (h : parsecmd s = .ok (c,buf)) : ∃ j, buf = nulterminate c s ∧
      Parses s .line (tokens s) c (rest s j) ∧ Derives .line (tokens s) (c.words s) := by
  have hsound := parseline_outcome hs
  cases hline : parseline s (fuelFor s) 0 with
  | ok r =>
    rw [hline] at hsound
    rw [parsecmd_eq (c := r.1) (j := r.2) hline] at h
    split at h
    next hnil =>
      cases h
      obtain ⟨ts,hts,hd⟩ := hsound.derives
      rw [hnil,append_nil] at hts
      exact ⟨r.2,rfl,hsound,hts ▸ hd⟩
    next => cases h
  | error e =>
    rw [parsecmd_error hline] at h
    cases h

/-- `parsecmd` ends, and it returns a tree exactly for the sentences of `line` with fewer than
`MAXARGS` words in each simple command, and then the tree of the derivation. -/
theorem parsecmd_accepts_grammar (s : List UInt8) (hs : 0 ∉ s) : parsecmd s ≠ .error .fuel ∧
      ∀ t, (∃ cmd buf, parsecmd s = .ok (cmd,buf) ∧ cmd.strings buf = t) ↔
        Derives .line (tokens s) t ∧ t.Bounded := by
  have hsound := parseline_outcome hs
  constructor
  · cases hline : parseline s (fuelFor s) 0 with
    | ok r =>
      rw [parsecmd_eq (c := r.1) (j := r.2) hline]
      split <;> simp
    | error e =>
      rw [parsecmd_error hline]
      rintro ⟨⟩
      rw [hline] at hsound
      exact hsound
  · intro t
    constructor
    · rintro ⟨c,buf,hc,rfl⟩
      obtain ⟨j,rfl,hp,hd⟩ := parsecmd_ok hs hc
      rw [strings_nulterminate hs hp.words]
      exact ⟨hd,hp.bounded⟩
    · rintro ⟨hd,hb⟩
      obtain ⟨c,j,hc,hj,hw⟩ := parsers_complete hs hd hb (fuelFor s) 0 []
        (by simp [rest]) (by simp [Follow]) (fuelFor_enough s)
      rw [NonTerm.parse] at hc
      rw [hc] at hsound
      refine ⟨c,nulterminate c s,?_,?_⟩
      · rw [parsecmd_eq hc,if_pos hj]
      · rw [strings_nulterminate hs hsound.words,hw]

/-- The line `(a|b c)>d&`. -/
theorem parsecmd_accepts_grammar_block : (0 : UInt8) ∉ [40, 97, 124, 98, 32, 99, 41, 62, 100, 38] ∧
      Derives .line (tokens [40, 97, 124, 98, 32, 99, 41, 62, 100, 38])
        (.back (.redir (.pipe (.exec [[97]]) (.exec [[98], [99]])) [100] 0x201 1)) := by
  refine ⟨by decide,(((parsecmd_accepts_grammar _ (by decide)).2 _).1 ⟨.back (.redir
    (.pipe (.exec [⟨1,2⟩]) (.exec [⟨3,4⟩, ⟨5,6⟩])) ⟨8,9⟩ 0x201 1),_,rfl,?_⟩).1⟩
  decide

/-- After `nulterminate` the pointers of the tree lead to its words as strings.  The NULs stand at
the end of the line or on bytes that belong to no word, and the other bytes are as before. -/
theorem nulterminate_yields_words (s : List UInt8) (hs : 0 ∉ s) {cmd : Cmd Span}
    {buf : List UInt8} (h : parsecmd s = .ok (cmd,buf)) :
    Derives .line (tokens s) (cmd.strings buf) ∧
      (cmd.All fun w => w.IsWord s ∧ cstring buf w.q = w.bytes s) ∧
      (cmd.All fun w => w.eq = s.length ∨
        ¬ isWordChar (charAt s w.eq) ∧ ∀ v : Span, v.IsWord s → w.eq < v.q ∨ v.eq ≤ w.eq) ∧
      buf.length = s.length ∧ ∀ i, (cmd.All fun w => w.eq ≠ i) → charAt buf i = charAt s i := by
  obtain ⟨j,rfl,hp,hd⟩ := parsecmd_ok hs h
  refine ⟨?_,?_,?_,length_nulterminate cmd s,fun i hi => charAt_nulterminate_of_ne hi s⟩
  · rwa [strings_nulterminate hs hp.words]
  · exact hp.words.and (cstring_nulterminate hs hp.words)
  · refine hp.words.imp fun w hw => ?_
    rcases Nat.eq_or_lt_of_le hw.le with heq | hlt
    · exact .inl heq
    · refine .inr ⟨hw.stops hlt,fun v hv => ?_⟩
      by_contra hin
      exact hw.end_ne hv (by omega) (by omega) rfl

/-- The line `a>b`. -/
theorem nulterminate_yields_words_redir :
    parsecmd [97, 62, 98] = .ok (.redir (.exec [⟨0,1⟩]) ⟨2,3⟩ 0x201 1,[97, 0, 98]) ∧
      cstring [97, 0, 98] 0 = [97] := by
  have h : parsecmd [97, 62, 98] = .ok (.redir (.exec [⟨0,1⟩]) ⟨2,3⟩ 0x201 1,[97, 0, 98]) := rfl
  exact ⟨h,((nulterminate_yields_words _ (by decide) h).2.1.1 ⟨0,1⟩ (by decide)).2⟩

end Parsecmd

end Xv6.Sh
