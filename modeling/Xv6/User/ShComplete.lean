import Xv6.User.ShSound

/-! # The parsers read every sentence

A sentence of the grammar that stands before a token that cannot continue it is read to its end.
With the soundness of the parsers, `parsecmd` accepts exactly the sentences of `line`. -/
namespace Xv6.Sh
open List

/-- What stands behind a sentence: nothing, or one of these symbols. -/
def Follow (toks : List Char) (ts : List Token) : Prop :=
  ∀ t ∈ ts.head?, ∃ c ∈ toks, t = .sym c.toUInt8

theorem Follow.not_starts {toks toks' : List Char} {ts : List Token} (h : Follow toks ts)
    (hd : toks.all fun c => !(toks'.map Char.toUInt8).contains c.toUInt8) :
    starts toks' ts = false := by
  match ts with
  | [] => rfl
  | t :: ts' =>
    obtain ⟨c,hc,rfl⟩ := h t rfl
    exact Bool.not_eq_true' _ ▸ all_eq_true.1 hd c hc

theorem Follow.starts {toks : List Char} {ts : List Token} (h : Follow toks ts) (hne : ts ≠ []) :
    starts toks ts := by
  match ts with
  | [] => exact absurd rfl hne
  | t :: ts' =>
    obtain ⟨c,hc,rfl⟩ := h t rfl
    exact elem_iff.2 (mem_map_of_mem hc)

theorem Follow.cons {toks : List Char} {c : Char} (hc : c ∈ toks) (ts : List Token) :
    Follow toks (.sym c.toUInt8 :: ts) := by
  rintro t ⟨⟩
  exact ⟨c,hc,rfl⟩

theorem Follow.mono {toks toks' : List Char} {ts : List Token} (h : Follow toks ts)
    (hsub : toks.all toks'.contains) : Follow toks' ts := by
  intro t ht
  obtain ⟨c,hc,rfl⟩ := h t ht
  exact ⟨c,elem_iff.1 (all_eq_true.1 hsub c hc),rfl⟩

theorem Args.not_starts {ts us : List Token} {ws : List (List UInt8)} {rs : List Redirection}
    (h : Args ts ws rs) {toks : List Char} (hus : starts toks us = false) :
    starts toks (ts ++ us) = false := by
  cases h with
  | nil => exact hus
  | word h h' => rfl

section Loops
variable {s : List UInt8} (hs : 0 ∉ s)
include hs

/-- `peek` finds the symbol, and `gettoken` takes it off. -/
theorem read_sym {c : Char} (hc : isSymbol c.toUInt8) {ts : List Token} {i : ℕ}
    (h : rest s i = .sym c.toUInt8 :: ts) :
    ∃ j tok k, peek s [c] i = .ok (true,j) ∧ rest s j = rest s i ∧
      gettoken s j = .ok (tok,k) ∧ rest s k = ts := by
  obtain ⟨j,hp,hj⟩ := peek_spec hs [c] (by simpa using hc) i
  obtain ⟨tok,w,k,hg,ht⟩ := gettoken_spec hs j
  rw [hj,h] at ht
  rw [h,(Follow.cons (mem_singleton_self c) ts).starts (by simp)] at hp
  exact ⟨j,_,k,hp,hj,hg,ht.tail⟩

theorem peek_not (toks : List Char) (htoks : toks.all fun c => isSymbol c.toUInt8) {i : ℕ}
    (h : starts toks (rest s i) = false) :
    ∃ j, peek s toks i = .ok (false,j) ∧ rest s j = rest s i := by
  obtain ⟨j,hp,hj⟩ := peek_spec hs toks htoks i
  exact ⟨j,by rw [hp,h],hj⟩

theorem gettoken_of_word {b : List UInt8} {ts : List Token} {i : ℕ} (h : rest s i = .word b :: ts) :
    ∃ w j, gettoken s i = .ok ((.word,w),j) ∧ rest s j = ts ∧ w.bytes s = b := by
  obtain ⟨tok,w,j,hg,ht⟩ := gettoken_spec hs i
  rw [h] at ht
  generalize hj : rest s j = us at ht
  cases ht
  exact ⟨w,j,hg,hj,rfl⟩

theorem gettoken_of_nil {i : ℕ} (h : rest s i = []) :
    ∃ w j, gettoken s i = .ok ((.eof,w),j) ∧ rest s j = [] := by
  obtain ⟨tok,w,j,hg,ht⟩ := gettoken_spec hs i
  rw [h] at ht
  generalize hj : rest s j = us at ht
  cases ht
  exact ⟨w,j,hg,hj⟩

/-- One round of `parseredirs` at a redirection. -/
theorem parseredirs_step {t : Token} {b : List UInt8} {ts : List Token} {i : ℕ}
    (h : rest s i = t :: .word b :: ts) (ht : starts ['<', '>'] (t :: .word b :: ts)) (fuel : ℕ)
    (cmd : Cmd Span) :
    ∃ tok w w1 us j, parseredirs s (fuel + 1) cmd i = parseredirs s fuel (addRedir tok cmd w) j ∧
      Taken s (t :: us) tok w1 us ∧ w.bytes s = b ∧ rest s j = ts := by
  obtain ⟨j,hp,hj⟩ := peek_spec hs ['<', '>'] rfl i
  obtain ⟨tok,w1,j1,hg,htok⟩ := gettoken_spec hs j
  rw [hj,h] at htok
  obtain ⟨w,j2,hg',hj2,hw⟩ := gettoken_of_word hs htok.tail
  rw [h] at hp
  refine ⟨tok,w,w1,rest s j1,j2,?_,?_,hw,hj2⟩
  · rw [parseredirs,bind_ok hp,if_pos ht,bind_ok hg]
    dsimp only
    rw [bind_ok hg',if_pos rfl]
  · rw [← htok.tail] at htok
    exact htok

theorem parseredirs_complete {ts us : List Token} {rs : List Redirection} (h : Redirs ts rs)
    (hus : starts ['<', '>'] us = false) (fuel : ℕ) (cmd : Cmd Span) (i : ℕ)
    (hi : rest s i = ts ++ us) (hf : (rest s i).length < fuel) :
    ∃ c j, parseredirs s fuel cmd i = .ok (c,j) ∧ rest s j = us ∧
      c.words s = nest (cmd.words s) rs := by
  induction h generalizing fuel cmd i with
  | nil =>
    obtain ⟨fuel,rfl⟩ : ∃ f, fuel = f + 1 := ⟨fuel - 1,by omega⟩
    rw [nil_append] at hi
    obtain ⟨j,hp,hj⟩ := peek_not hs ['<', '>'] rfl (i := i) (by rw [hi,hus])
    rw [parseredirs,bind_ok hp]
    exact ⟨cmd,j,rfl,by rw [hj,hi],rfl⟩
  | _ h ih =>
    obtain ⟨fuel,rfl⟩ : ∃ f, fuel = f + 1 := ⟨fuel - 1,by omega⟩
    obtain ⟨tok,w,w1,vs,j,hstep,htok,rfl,hj⟩ := parseredirs_step hs hi rfl fuel cmd
    have hlen : (rest s j).length < fuel := by
      rw [hj]
      simp [hi] at hf ⊢
      omega
    obtain ⟨c,k,hc,hk,hcw⟩ := ih fuel (addRedir tok cmd w) j hj hlen
    rw [hstep,hc]
    cases htok
    exact ⟨c,k,rfl,hk,hcw⟩

theorem parsebacks_complete {us : List Token} (hus : starts ['&'] us = false) (n fuel : ℕ)
    (cmd : Cmd Span) (i : ℕ) (hi : rest s i = List.replicate n (.sym '&'.toUInt8) ++ us)
    (hf : (rest s i).length < fuel) :
    ∃ j, parsebacks s fuel cmd i = .ok (Cmd.back^[n] cmd,j) ∧ rest s j = us := by
  induction n generalizing fuel cmd i with
  | zero =>
    obtain ⟨fuel,rfl⟩ : ∃ f, fuel = f + 1 := ⟨fuel - 1,by omega⟩
    have hi : rest s i = us := hi
    obtain ⟨j,hp,hj⟩ := peek_not hs ['&'] rfl (i := i) (by rw [hi,hus])
    rw [parsebacks,bind_ok hp]
    exact ⟨j,rfl,by rw [hj,hi]⟩
  | succ n ih =>
    obtain ⟨fuel,rfl⟩ : ∃ f, fuel = f + 1 := ⟨fuel - 1,by omega⟩
    rw [replicate_succ,cons_append] at hi
    obtain ⟨j,tok,k,hp,-,hg,hk⟩ := read_sym hs rfl hi
    have hlen : (rest s k).length < fuel := by simpa [hi,hk] using hf
    rw [parsebacks,bind_ok hp,if_pos rfl,bind_ok hg]
    exact ih fuel (.back cmd) k hk hlen

theorem parseargs_complete {ts us : List Token} {ws : List (List UInt8)} {rs : List Redirection}
    (h : Args ts ws rs) (hus : Follow ['|', ')', '&', ';'] us) (fuel argc : ℕ) (ret : Cmd Span)
    (i : ℕ) {ws0 : List (List UInt8)} {rs0 : List Redirection} (hi : rest s i = ts ++ us)
    (hf : (rest s i).length < fuel) (hret : ret.words s = nest (.exec ws0) rs0)
    (hmax : argc + ws.length < MAXARGS) :
    ∃ c j, parseargs s fuel argc ret i = .ok (c,j) ∧ rest s j = us ∧
      c.words s = nest (.exec (ws0 ++ ws)) (rs0 ++ rs) := by
  induction h generalizing fuel argc ret i ws0 rs0 with
  | nil =>
    obtain ⟨fuel,rfl⟩ : ∃ f, fuel = f + 1 := ⟨fuel - 1,by omega⟩
    obtain ⟨j,hp,hj⟩ := peek_spec hs ['|', ')', '&', ';'] rfl i
    rw [List.nil_append] at hi
    rw [parseargs,bind_ok hp]
    by_cases hne : us = []
    · -- at the end the loop is left by the `break`
      rw [hi,if_neg (by simp [hne,starts])]
      obtain ⟨w,k,hg,hk⟩ := gettoken_of_nil hs (i := j) (by rw [hj,hi,hne])
      rw [bind_ok hg]
      exact ⟨ret,k,rfl,by rw [hk,hne],by simpa using hret⟩
    · rw [hi,if_pos (hus.starts hne)]
      exact ⟨ret,j,rfl,by rw [hj,hi],by simpa using hret⟩
  | @word w ts us' ws rs rs' h h' ih =>
    obtain ⟨fuel,rfl⟩ : ∃ f, fuel = f + 1 := ⟨fuel - 1,by omega⟩
    obtain ⟨j,hp,hj⟩ := peek_spec hs ['|', ')', '&', ';'] rfl i
    rw [List.cons_append] at hi
    obtain ⟨v,k,hg,hk,rfl⟩ := gettoken_of_word hs (hj.trans hi)
    have hst : starts ['|', ')', '&', ';'] (rest s i) = false := by rw [hi]; rfl
    have hlen : (rest s i).length = (rest s k).length + 1 := by simp [hi,hk]
    simp only [List.length_cons] at hmax
    obtain ⟨c1,j1,hc1,hj1,hw1⟩ := parseredirs_complete hs h
      (h'.not_starts (hus.not_starts rfl)) fuel (ret.addArg v) k
      (by rw [hk,List.append_assoc]) (by omega)
    have hret1 : c1.words s = nest (.exec (ws0 ++ [v.bytes s])) (rs0 ++ rs) := by
      rw [hw1,Cmd.words,map_addArg,← Cmd.words,hret,addArg_nest,nest_append]
    have hlen1 : (rest s j1).length ≤ (rest s k).length := by simp [hj1,hk]
    obtain ⟨c,j2,hc,hj2,hw⟩ := ih fuel (argc + 1) c1 j1 hj1 (by omega) hret1 (by omega)
    refine ⟨c,j2,?_,hj2,by simpa using hw⟩
    rw [parseargs,bind_ok hp,hst,if_neg (by decide),bind_ok hg]
    dsimp only
    rw [if_neg (by decide),if_neg (by simp),if_neg (by omega),bind_ok hc1,hc]

end Loops

/-- What can stand behind a sentence of the nonterminal. -/
def NonTerm.follow : NonTerm → List Char
  | .line => [')']
  | .pipe => [')', '&', ';']
  | .exec => ['|', ')', '&', ';']

/-- The parser reads the sentence, where it is followed by what may follow, and returns its
tree. -/
def Reads (s : List UInt8) (nt : NonTerm) (ts : List Token) (t : Cmd (List UInt8)) : Prop :=
  t.Bounded → ∀ fuel i us, rest s i = ts ++ us → Follow nt.follow us →
    nt.fuel (rest s i).length ≤ fuel →
    ∃ c j, nt.parse s fuel i = .ok (c,j) ∧ rest s j = us ∧ c.words s = t

section Derivations
variable {s : List UInt8} {ts us : List Token} {t u : Cmd (List UInt8)} {rs : List Redirection}
  (hs : 0 ∉ s)
include hs

theorem Reads.last (h : Reads s .pipe ts t) (n : ℕ) :
    Reads s .line (ts ++ List.replicate n (.sym '&'.toUInt8)) (Cmd.back^[n] t) := by
  intro hb fuel i vs hi hvs hf
  simp only [NonTerm.fuel,NonTerm.follow,NonTerm.parse,Reads] at h hvs hf ⊢
  obtain ⟨fuel,rfl⟩ : ∃ f, fuel = f + 1 := ⟨fuel - 1,by omega⟩
  rw [append_assoc] at hi
  have hfollow : Follow [')', '&', ';'] (List.replicate n (.sym '&'.toUInt8) ++ vs) := by
    cases n with
    | zero => exact hvs.mono rfl
    | succ n => exact .cons (by simp) _
  obtain ⟨c,j,hc,hj,hw⟩ := h ((bounded_backs _ n).1 hb) fuel i _ hi hfollow (by omega)
  have hlen : (rest s j).length ≤ (rest s i).length := by simp [hi,hj]
  obtain ⟨j1,hj1,hr⟩ := parsebacks_complete hs (hvs.not_starts rfl) n fuel c j hj
    (by omega)
  obtain ⟨k,hp,hk⟩ := peek_not hs [';'] rfl (i := j1)
    (by rw [hr,hvs.not_starts rfl])
  refine ⟨Cmd.back^[n] c,k,?_,by rw [hk,hr],by rw [words_backs,hw]⟩
  rw [parseline,bind_ok hc,bind_ok hj1,bind_ok hp]
  rfl

theorem Reads.list (h : Reads s .pipe ts t) (n : ℕ) (h' : Reads s .line us u) :
    Reads s .line (ts ++ (List.replicate n (.sym '&'.toUInt8) ++ .sym ';'.toUInt8 :: us))
      (.list (Cmd.back^[n] t) u) := by
  intro hb fuel i vs hi hvs hf
  simp only [NonTerm.fuel,NonTerm.follow,NonTerm.parse,Reads] at h h' hvs hf ⊢
  obtain ⟨fuel,rfl⟩ : ∃ f, fuel = f + 1 := ⟨fuel - 1,by omega⟩
  simp only [append_assoc,cons_append] at hi
  have hfollow : Follow [')', '&', ';']
      (List.replicate n (.sym '&'.toUInt8) ++ .sym ';'.toUInt8 :: (us ++ vs)) := by
    cases n <;> exact .cons (by simp) _
  obtain ⟨c,j,hc,hj,hw⟩ := h ((bounded_backs _ n).1 hb.1) fuel i _ hi hfollow (by omega)
  have hlen : (rest s j).length ≤ (rest s i).length := by simp [hi,hj]
  obtain ⟨j1,hj1,hr⟩ := parsebacks_complete hs rfl n fuel c j hj (by omega)
  obtain ⟨k,tok,k1,hp,-,hg,hk1⟩ := read_sym hs rfl hr
  have hlen' : (rest s k1).length < (rest s j).length := by
    simp [hk1,hj]
    omega
  obtain ⟨d,k2,hd,hk2,hw'⟩ := h' hb.2 fuel k1 vs hk1 hvs (by omega)
  refine ⟨.list (Cmd.back^[n] c) d,k2,?_,hk2,?_⟩
  · rw [parseline,bind_ok hc,bind_ok hj1,bind_ok hp,if_pos rfl,bind_ok hg,bind_ok hd]
    rfl
  · rw [Cmd.words,Cmd.map,← Cmd.words,← Cmd.words,words_backs,hw,hw']

theorem Reads.single (h : Reads s .exec ts t) : Reads s .pipe ts t := by
  intro hb fuel i vs hi hvs hf
  simp only [NonTerm.fuel,NonTerm.follow,NonTerm.parse,Reads] at h hvs hf ⊢
  obtain ⟨fuel,rfl⟩ : ∃ f, fuel = f + 1 := ⟨fuel - 1,by omega⟩
  obtain ⟨c,j,hc,hj,hw⟩ := h hb fuel i vs hi (hvs.mono rfl) (by omega)
  obtain ⟨k,hp,hk⟩ := peek_not hs ['|'] rfl (i := j)
    (by rw [hj,hvs.not_starts rfl])
  refine ⟨c,k,?_,by rw [hk,hj],hw⟩
  rw [parsepipe,bind_ok hc,bind_ok hp]
  rfl

theorem Reads.pipe (h : Reads s .exec ts t) (h' : Reads s .pipe us u) :
    Reads s .pipe (ts ++ .sym '|'.toUInt8 :: us) (.pipe t u) := by
  intro hb fuel i vs hi hvs hf
  simp only [NonTerm.fuel,NonTerm.follow,NonTerm.parse,Reads] at h h' hvs hf ⊢
  obtain ⟨fuel,rfl⟩ : ∃ f, fuel = f + 1 := ⟨fuel - 1,by omega⟩
  simp only [append_assoc,cons_append] at hi
  obtain ⟨c,j,hc,hj,hw⟩ := h hb.1 fuel i _ hi (.cons (by simp) _) (by omega)
  obtain ⟨k,tok,k1,hp,-,hg,hk1⟩ := read_sym hs rfl hj
  have hlen : (rest s k1).length < (rest s i).length := by
    simp [hk1,hi]
    omega
  obtain ⟨d,k2,hd,hk2,hw'⟩ := h' hb.2 fuel k1 vs hk1 hvs (by omega)
  refine ⟨.pipe c d,k2,?_,hk2,?_⟩
  · rw [parsepipe,bind_ok hc,bind_ok hp,if_pos rfl,bind_ok hg,bind_ok hd]
    rfl
  · rw [Cmd.words,Cmd.map,← Cmd.words,← Cmd.words,hw,hw']

theorem Reads.block (h : Reads s .line ts t) (h' : Redirs us rs) :
    Reads s .exec (.sym '('.toUInt8 :: (ts ++ .sym ')'.toUInt8 :: us)) (nest t rs) := by
  intro hb fuel i vs hi hvs hf
  simp only [NonTerm.fuel,NonTerm.follow,NonTerm.parse,Reads] at h hvs hf ⊢
  obtain ⟨fuel,rfl⟩ : ∃ f, fuel = f + 2 := ⟨fuel - 2,by omega⟩
  simp only [append_assoc,cons_append] at hi
  -- `parseexec` and `parseblock` both look at the parenthesis
  obtain ⟨j,-,-,hp,hj,-,-⟩ := read_sym hs rfl hi
  obtain ⟨j1,tok,k,hp',-,hg,hk⟩ := read_sym hs rfl (hj.trans hi)
  have hlen : (rest s k).length < (rest s i).length := by simp [hk,hi]
  obtain ⟨c,k1,hc,hk1,hw⟩ := h ((bounded_nest _ _).1 hb) fuel k _ hk (.cons (by simp) _)
    (by omega)
  obtain ⟨k2,tok',k3,hp2,-,hg',hk3⟩ := read_sym hs rfl hk1
  have hlen' : (rest s k3).length < (rest s i).length := by
    simp [hk3,hi]
    omega
  obtain ⟨d,k4,hd,hk4,hw'⟩ := parseredirs_complete hs h' (hvs.not_starts rfl) fuel c
    k3 hk3 (by omega)
  refine ⟨d,k4,?_,hk4,by rw [hw',hw]⟩
  rw [parseexec,bind_ok hp,if_pos rfl,parseblock,bind_ok hp',if_pos rfl,bind_ok hg,
    bind_ok hc,bind_ok hp2,if_pos rfl,bind_ok hg',hd]

theorem Reads.simple {ws : List (List UInt8)} {rs' : List Redirection} (h : Redirs ts rs)
    (h' : Args us ws rs') : Reads s .exec (ts ++ us) (nest (.exec ws) (rs ++ rs')) := by
  intro hb fuel i vs hi hvs hf
  simp only [NonTerm.fuel,NonTerm.follow,NonTerm.parse] at hvs hf ⊢
  obtain ⟨fuel,rfl⟩ : ∃ f, fuel = f + 1 := ⟨fuel - 1,by omega⟩
  rw [append_assoc] at hi
  have hst : starts ['('] (rest s i) = false := by
    rw [hi]
    cases h with
    | nil => exact h'.not_starts (hvs.not_starts rfl)
    | _ => rfl
  obtain ⟨j,hp,hj⟩ := peek_not hs _ rfl hst
  obtain ⟨c,k,hc,hk,hw⟩ := parseredirs_complete hs h
    (h'.not_starts (hvs.not_starts rfl)) fuel (.exec []) j (hj.trans hi)
    (by rw [hj]; omega)
  have hlen : (rest s k).length ≤ (rest s i).length := by simp [hk,hi]
  obtain ⟨d,k1,hd,hk1,hw'⟩ := parseargs_complete hs h' hvs fuel 0 c k hk (by omega) hw
    (by rw [Nat.zero_add]; exact (bounded_nest _ _).1 hb)
  refine ⟨d,k1,?_,hk1,hw'⟩
  rw [parseexec,bind_ok hp,if_neg (by decide),bind_ok hc,hd]

theorem parsers_complete {nt : NonTerm} (h : Derives nt ts t) : Reads s nt ts t := by
  induction h with
  | last _ n ih => exact ih.last hs n
  | list _ n _ ih ih' => exact ih.list hs n ih'
  | single _ ih => exact ih.single hs
  | pipe _ _ ih ih' => exact ih.pipe hs ih'
  | block _ h' ih => exact ih.block hs h'
  | simple h h' => exact .simple hs h h'

end Derivations

end Xv6.Sh
