import Xv6.User.ShGrammar

/-! # What the parsers read is a sentence

Each parser either panics or has read a sentence of its nonterminal, whose tree it returns. -/
namespace Xv6.Sh
open List Cmd

variable {s : List UInt8}

/-- The cases in which `peek` finds the start of a redirection. -/
theorem starts_redir {ts : List Token} (h : starts ['<', '>'] ts) :
    ∃ t ts', ts = t :: ts' ∧ (t = .sym '<'.toUInt8 ∨ t = .sym '>'.toUInt8 ∨ t = .append) := by
  match ts with
  | [] => cases h
  | .word w :: ts' => cases h
  | .append :: ts' => exact ⟨_,_,rfl,.inr (.inr rfl)⟩
  | .sym c :: ts' =>
    have hc : c ∈ ['<'.toUInt8, '>'.toUInt8] := elem_iff.1 h
    simp only [mem_cons,not_mem_nil,or_false] at hc
    refine ⟨_,_,rfl,?_⟩
    rcases hc with rfl | rfl
    · exact .inl rfl
    · exact .inr (.inl rfl)

theorem starts_sym {c : Char} (hc : c.toUInt8 ≠ '>'.toUInt8) {ts : List Token} (h : starts [c] ts) :
    ∃ ts', ts = .sym c.toUInt8 :: ts' := by
  match ts with
  | [] => cases h
  | .word w :: ts' => cases h
  | .append :: ts' => exact absurd (mem_singleton.1 (elem_iff.1 h)).symm hc
  | .sym d :: ts' => exact ⟨ts',by rw [mem_singleton.1 (elem_iff.1 h)]⟩

theorem Taken.tail {t : Token} {ts us : List Token} {tok : Tok} {w : Span}
    (h : Taken s (t :: ts) tok w us) : us = ts := by
  cases h <;> rfl

theorem Taken.of_word {ts us : List Token} {tok : Tok} {w : Span} (h : Taken s ts tok w us)
    (htok : tok = .word) : w.IsWord s ∧ ts = .word (w.bytes s) :: us := by
  cases h with
  | word hw => exact ⟨hw,rfl⟩
  | _ => cases htok

theorem Taken.of_eof {ts us : List Token} {tok : Tok} {w : Span} (h : Taken s ts tok w us)
    (htok : tok = .eof) : us = ts := by
  cases h with
  | eof => rfl
  | _ => cases htok

theorem addRedir_redirs {tok : Tok} {t : Token} {w w1 : Span} {ts us : List Token}
    {rs : List Redirection} (cmd : Cmd Span)
    (ht : t = .sym '<'.toUInt8 ∨ t = .sym '>'.toUInt8 ∨ t = .append)
    (htaken : Taken s (t :: ts) tok w1 ts) (h : Redirs us rs) :
    ∃ r, (addRedir tok cmd w).words s = nest (cmd.words s) [r] ∧
      Redirs (t :: .word (w.bytes s) :: us) (r :: rs) ∧ 
      (cmd.All (Span.IsWord s) → w.IsWord s → (addRedir tok cmd w).All (Span.IsWord s)) := by
  rcases ht with rfl | rfl | rfl <;> cases htaken
  · exact ⟨_,rfl,.input h,fun hc hw => ⟨hc,hw⟩⟩
  · exact ⟨_,rfl,.output h,fun hc hw => ⟨hc,hw⟩⟩
  · exact ⟨_,rfl,.append h,fun hc hw => ⟨hc,hw⟩⟩

section Loops
variable (hs : 0 ∉ s)
include hs

/-- `gettoken` behind a `peek` that has found the symbol. -/
theorem gettoken_sym {c : Char} (hc : c.toUInt8 ≠ '>'.toUInt8) {i j : ℕ}
    (hj : rest s j = rest s i) (h : starts [c] (rest s i)) :
    ∃ tok k, gettoken s j = .ok (tok,k) ∧ rest s i = .sym c.toUInt8 :: rest s k := by
  obtain ⟨ts,hts⟩ := starts_sym hc h
  obtain ⟨tok,w,k,hg,ht⟩ := gettoken_spec hs j
  rw [hj,hts] at ht
  exact ⟨_,k,hg,by rw [hts,ht.tail]⟩

theorem parseredirs_sound (fuel : ℕ) (cmd : Cmd Span) (i : ℕ) (hf : (rest s i).length < fuel) :
    Outcome (fun c j => ∃ ts rs, rest s i = ts ++ rest s j ∧ Redirs ts rs ∧
      c.words s = nest (cmd.words s) rs ∧ (cmd.All (Span.IsWord s) → c.All (Span.IsWord s)))
      (parseredirs s fuel cmd i) := by
  induction fuel generalizing cmd i with
  | zero => omega
  | succ fuel ih =>
    obtain ⟨j,hp,hj⟩ := peek_spec hs ['<', '>'] rfl i
    rw [parseredirs,bind_ok hp]
    split
    next hst =>
      obtain ⟨tok,w1,j1,hg,ht⟩ := gettoken_spec hs j
      obtain ⟨ret,w2,j2,hg',ht'⟩ := gettoken_spec hs j1
      rw [bind_ok hg]
      dsimp only
      rw [bind_ok hg']
      obtain ⟨t,ts',hts,hcases⟩ := starts_redir hst
      rw [hj,hts] at ht
      obtain rfl : rest s j1 = ts' := ht.tail
      split
      next hret =>
        obtain ⟨hw,hts'⟩ := ht'.of_word hret
        have hlen : (rest s j2).length < fuel := by
          rw [hts,hts'] at hf
          simp at hf
          omega
        apply (ih (addRedir tok cmd w2) j2 hlen).mono
        rintro c k ⟨us,rs,hus,hrs,hc,hall⟩
        obtain ⟨r,hr,hrs',hall'⟩ := addRedir_redirs cmd hcases ht hrs
        refine ⟨_,_,?_,hrs',?_,fun h => hall (hall' h hw)⟩
        · rw [hts,hts',hus]
          rfl
        · rw [hc,hr,← nest_append]
          rfl
      next => trivial
    next hst =>
      exact ⟨[],[],by simp [hj],.nil,rfl,id⟩

/-- The loop of `parseexec` reads words and redirections. -/
theorem parseargs_sound (fuel argc : ℕ) (ret : Cmd Span) (i : ℕ) {ws : List (List UInt8)}
    {rs : List Redirection} (hf : (rest s i).length < fuel)
    (hret : ret.words s = nest (.exec ws) rs) (hws : ws.length = argc) (hargc : argc < MAXARGS)
    (hall : ret.All (Span.IsWord s)) :
    Outcome (fun c j => ∃ ts ws' rs', rest s i = ts ++ rest s j ∧ Args ts ws' rs' ∧
      c.words s = nest (.exec (ws ++ ws')) (rs ++ rs') ∧ (ws ++ ws').length < MAXARGS ∧
      c.All (Span.IsWord s)) (parseargs s fuel argc ret i) := by
  induction fuel generalizing argc ret i ws rs with
  | zero => omega
  | succ fuel ih =>
    obtain ⟨j,hp,hj⟩ := peek_spec hs ['|', ')', '&', ';'] rfl i
    have hnil : ∀ k, rest s k = rest s i → ∃ ts ws' rs', rest s i = ts ++ rest s k ∧
        Args ts ws' rs' ∧ ret.words s = nest (.exec (ws ++ ws')) (rs ++ rs') ∧
        (ws ++ ws').length < MAXARGS ∧ ret.All (Span.IsWord s) := fun k hk =>
      ⟨[],[],[],by simp [hk],.nil,by simpa using hret,by simpa [hws] using hargc,hall⟩
    rw [parseargs,bind_ok hp]
    split
    next => exact hnil j hj
    next =>
      obtain ⟨tok,w,j1,hg,ht⟩ := gettoken_spec hs j
      rw [bind_ok hg]
      dsimp only
      rw [hj] at ht
      split
      next heof => exact hnil j1 (ht.of_eof heof)
      next =>
      split
      next => trivial
      next hword =>
      split
      next => trivial
      next hmax =>
        obtain ⟨hw,hts⟩ := ht.of_word (not_not.1 hword)
        have hlen : (rest s j1).length < fuel := by simpa [hts] using hf
        apply (parseredirs_sound hs fuel (ret.addArg w) j1 hlen).bind
        rintro c1 j2 ⟨us,rs1,hus,hrs1,hc1,hall1⟩
        have hlen' : (rest s j2).length < fuel := by
          rw [hus,length_append] at hlen
          omega
        have hc1' : c1.words s = nest (.exec (ws ++ [w.bytes s])) (rs ++ rs1) := by
          rw [hc1,words,map_addArg,← words,hret,addArg_nest,nest_append]
        apply (ih (argc + 1) c1 j2 hlen' hc1' (by simp [hws]) (by omega)
          (hall1 (all_addArg hall hw))).mono
        rintro c k ⟨vs,ws',rs',hvs,hargs,hc,hmax',hall'⟩
        refine ⟨_,_,_,?_,.word (w := w.bytes s) hrs1 hargs,?_,?_,hall'⟩
        · rw [hts,hus,hvs]
          simp
        · simpa using hc
        · simpa using hmax'

theorem parsebacks_sound (fuel : ℕ) (cmd : Cmd Span) (i : ℕ) (hf : (rest s i).length < fuel) :
    Outcome (fun c j => ∃ n, rest s i = List.replicate n (.sym '&'.toUInt8) ++ rest s j ∧
      c = back^[n] cmd) (parsebacks s fuel cmd i) := by
  induction fuel generalizing cmd i with
  | zero => omega
  | succ fuel ih =>
    obtain ⟨j,hp,hj⟩ := peek_spec hs ['&'] rfl i
    rw [parsebacks,bind_ok hp]
    split
    next hst =>
      obtain ⟨tok,j1,hg,hts⟩ := gettoken_sym hs (by decide) hj hst
      rw [bind_ok hg]
      have hlen : (rest s j1).length < fuel := by simpa [hts] using hf
      apply (ih (.back cmd) j1 hlen).mono
      rintro c k ⟨n,hn,rfl⟩
      exact ⟨n + 1,by rw [hts,hn]; rfl,rfl⟩
    next => exact ⟨0,by simp [hj],rfl⟩

end Loops

/-- The fuel that a parser needs for a sequence of tokens. -/
def NonTerm.fuel : NonTerm → ℕ → ℕ
  | .line, n => 4 * n + 4
  | .pipe, n => 4 * n + 3
  | .exec, n => 4 * n + 2

def NonTerm.parse (s : List UInt8) : NonTerm → ℕ → Parser (Cmd Span)
  | .line => parseline s
  | .pipe => parsepipe s
  | .exec => parseexec s

/-- A parser has read a sentence of its nonterminal off the tokens, and returned its tree. -/
structure Parses (s : List UInt8) (nt : NonTerm) (ts : List Token) (c : Cmd Span)
    (us : List Token) : Prop where
  derives : ∃ vs, ts = vs ++ us ∧ Derives nt vs (c.words s)
  bounded : (c.words s).Bounded
  words : c.All (Span.IsWord s)

section Parses
variable {ts us us' vs : List Token} {c d : Cmd Span} {n : ℕ}

theorem Parses.length_le {nt : NonTerm} (h : Parses s nt ts c us) : us.length ≤ ts.length := by
  obtain ⟨vs,hvs,-⟩ := h.derives
  simp [hvs]

theorem words_backs (c : Cmd Span) (n : ℕ) :
    (back^[n] c).words s = back^[n] (c.words s) := by
  induction n generalizing c with
  | zero => rfl
  | succ n ih => exact ih _

theorem all_backs {p : Span → Prop} (c : Cmd Span) (n : ℕ) : (back^[n] c).All p ↔ c.All p := by
  induction n generalizing c with
  | zero => rfl
  | succ n ih => exact ih _

theorem Parses.last (h : Parses s .pipe ts c us)
    (hn : us = List.replicate n (.sym '&'.toUInt8) ++ us') :
    Parses s .line ts (back^[n] c) us' where
  derives := by
    obtain ⟨vs,hvs,hd⟩ := h.derives
    rw [words_backs]
    exact ⟨_,by simp [hvs,hn],.last hd n⟩
  bounded := by
    rw [words_backs,bounded_backs]
    exact h.bounded
  words := (all_backs c n).2 h.words

theorem Parses.list (h : Parses s .pipe ts c us)
    (hn : us = List.replicate n (.sym '&'.toUInt8) ++ .sym ';'.toUInt8 :: vs)
    (h' : Parses s .line vs d us') : Parses s .line ts (.list (back^[n] c) d) us' where
  derives := by
    obtain ⟨xs,hxs,hd⟩ := h.derives
    obtain ⟨ys,hys,hd'⟩ := h'.derives
    rw [Cmd.words,Cmd.map,← Cmd.words,← Cmd.words,words_backs]
    exact ⟨_,by simp [hxs,hys,hn],.list hd n hd'⟩
  bounded := by
    rw [Cmd.words,Cmd.map,← Cmd.words,← Cmd.words,words_backs]
    exact ⟨(bounded_backs _ n).2 h.bounded,h'.bounded⟩
  words := ⟨(all_backs c n).2 h.words,h'.words⟩

theorem Parses.single (h : Parses s .exec ts c us) : Parses s .pipe ts c us where
  derives := by
    obtain ⟨vs,hvs,hd⟩ := h.derives
    exact ⟨vs,hvs,.single hd⟩
  bounded := h.bounded
  words := h.words

theorem Parses.pipe (h : Parses s .exec ts c (.sym '|'.toUInt8 :: vs))
    (h' : Parses s .pipe vs d us') : Parses s .pipe ts (.pipe c d) us' where
  derives := by
    obtain ⟨xs,hxs,hd⟩ := h.derives
    obtain ⟨ys,hys,hd'⟩ := h'.derives
    exact ⟨_,by simp [hxs,hys],.pipe hd hd'⟩
  bounded := ⟨h.bounded,h'.bounded⟩
  words := ⟨h.words,h'.words⟩

theorem Parses.block {rs : List Redirection} (h : Parses s .line ts c (.sym ')'.toUInt8 :: us))
    (hus : us = vs ++ us') (hrs : Redirs vs rs) (hd : d.words s = nest (c.words s) rs)
    (hall : c.All (Span.IsWord s) → d.All (Span.IsWord s)) :
    Parses s .exec (.sym '('.toUInt8 :: ts) d us' where
  derives := by
    obtain ⟨xs,hxs,hc⟩ := h.derives
    rw [hd]
    exact ⟨_,by simp [hxs,hus],.block hc hrs⟩
  bounded := by
    rw [hd,bounded_nest]
    exact h.bounded
  words := hall h.words

end Parses

/-- With this fuel the parser reads sentences of its nonterminal. -/
def Sound (s : List UInt8) (fuel : ℕ) (nt : NonTerm) : Prop :=
  ∀ i, nt.fuel (rest s i).length ≤ fuel →
    Outcome (fun c j => Parses s nt (rest s i) c (rest s j)) (nt.parse s fuel i)

section Parsers
variable {fuel : ℕ} (hs : 0 ∉ s)
include hs

theorem parseline_sound (hpipe : Sound s fuel .pipe) (hline : Sound s fuel .line) :
    Sound s (fuel + 1) .line := by
  intro i hf
  simp only [Sound,NonTerm.fuel,NonTerm.parse] at hpipe hline hf ⊢
  rw [parseline]
  apply (hpipe i (by omega)).bind
  intro c1 j1 h1
  have hle := h1.length_le
  apply (parsebacks_sound hs fuel c1 j1 (by omega)).bind
  rintro _ j2 ⟨n,hn,rfl⟩
  obtain ⟨j,hp,hj⟩ := peek_spec hs [';'] rfl j2
  rw [bind_ok hp]
  split
  next hst =>
    obtain ⟨tok,j3,hg,hts⟩ := gettoken_sym hs (by decide) hj hst
    rw [bind_ok hg]
    have hlen : (rest s j1).length = n + ((rest s j3).length + 1) := by simp [hn,hts]
    apply (hline j3 (by omega)).bind
    intro c2 j4 h2
    exact h1.list (by rw [hn,hts]) h2
  next => exact h1.last (by rw [hn,hj])

theorem parsepipe_sound (hexec : Sound s fuel .exec) (hpipe : Sound s fuel .pipe) :
    Sound s (fuel + 1) .pipe := by
  intro i hf
  simp only [Sound,NonTerm.fuel,NonTerm.parse] at hpipe hexec hf ⊢
  rw [parsepipe]
  apply (hexec i (by omega)).bind
  intro c1 j1 h1
  have hle := h1.length_le
  obtain ⟨j,hp,hj⟩ := peek_spec hs ['|'] rfl j1
  rw [bind_ok hp]
  split
  next hst =>
    obtain ⟨tok,j2,hg,hts⟩ := gettoken_sym hs (by decide) hj hst
    rw [bind_ok hg]
    have hlen : (rest s j1).length = (rest s j2).length + 1 := by simp [hts]
    apply (hpipe j2 (by omega)).bind
    intro c2 j3 h2
    rw [hts] at h1
    exact h1.pipe h2
  next =>
    rw [← hj] at h1
    exact h1.single

theorem parseblock_sound (hline : Sound s fuel .line) (i : ℕ) (hst : starts ['('] (rest s i))
    (hf : 4 * (rest s i).length + 1 ≤ fuel + 1) :
    Outcome (fun c j => Parses s .exec (rest s i) c (rest s j)) (parseblock s (fuel + 1) i) := by
  simp only [Sound,NonTerm.fuel,NonTerm.parse] at hline
  obtain ⟨j,hp,hj⟩ := peek_spec hs ['('] rfl i
  obtain ⟨tok,j1,hg,hts⟩ := gettoken_sym hs (by decide) hj hst
  rw [parseblock,bind_ok hp,if_pos hst,bind_ok hg]
  have hlen : (rest s i).length = (rest s j1).length + 1 := by simp [hts]
  apply (hline j1 (by omega)).bind
  intro c1 j2 h1
  have hle := h1.length_le
  obtain ⟨k,hp',hk⟩ := peek_spec hs [')'] rfl j2
  rw [bind_ok hp']
  split
  next hst' =>
    obtain ⟨tok',j3,hg',hts'⟩ := gettoken_sym hs (by decide) hk hst'
    rw [bind_ok hg']
    have hlen' : (rest s j2).length = (rest s j3).length + 1 := by simp [hts']
    apply (parseredirs_sound hs fuel c1 j3 (by omega)).mono
    rintro c j4 ⟨us,rs,hus,hrs,hc,hall⟩
    rw [hts'] at h1
    rw [hts]
    exact h1.block hus hrs hc hall
  next => trivial

theorem parseexec_sound (hblock : ∀ i, starts ['('] (rest s i) → 4 * (rest s i).length + 1 ≤ fuel →
      Outcome (fun c j => Parses s .exec (rest s i) c (rest s j)) (parseblock s fuel i)) :
    Sound s (fuel + 1) .exec := by
  intro i hf
  simp only [NonTerm.fuel,NonTerm.parse] at hf ⊢
  obtain ⟨j,hp,hj⟩ := peek_spec hs ['('] rfl i
  rw [parseexec,bind_ok hp]
  split
  next hst =>
    rw [← hj] at hst hf ⊢
    exact hblock j hst (by omega)
  next =>
    rw [← hj] at hf ⊢
    apply (parseredirs_sound hs fuel (.exec []) j (by omega)).bind
    rintro c1 j1 ⟨ts,rs,hts,hrs,hc1,hall⟩
    have hlen : (rest s j).length = ts.length + (rest s j1).length := by simp [hts]
    apply (parseargs_sound hs fuel 0 c1 j1 (by omega) hc1 rfl (by decide)
      (hall (by simp [All]))).mono
    rintro c k ⟨us,ws,rs',hus,hargs,hc,hmax,hall'⟩
    rw [List.map_nil,List.nil_append] at hc hmax
    refine ⟨⟨ts ++ us,?_,?_⟩,?_,hall'⟩
    · rw [hts,hus,List.append_assoc]
    · rw [hc]
      exact .simple hrs hargs
    · rw [hc,bounded_nest]
      exact hmax

/-- The parsers read sentences: by induction on the fuel, all at once. -/
theorem parsers_sound (fuel : ℕ) (nt : NonTerm) : Sound s fuel nt := by
  have hall : (∀ nt, Sound s fuel nt) ∧ ∀ i, starts ['('] (rest s i) →
      4 * (rest s i).length + 1 ≤ fuel →
      Outcome (fun c j => Parses s .exec (rest s i) c (rest s j)) (parseblock s fuel i) := by
    induction fuel with
    | zero =>
      refine ⟨fun nt i hf => ?_,fun i _ hf => by omega⟩
      cases nt <;> simp only [NonTerm.fuel] at hf <;> omega
    | succ fuel ih =>
      refine ⟨fun nt => ?_,parseblock_sound hs (ih.1 .line)⟩
      cases nt with
      | line => exact parseline_sound hs (ih.1 .pipe) (ih.1 .line)
      | pipe => exact parsepipe_sound hs (ih.1 .exec) (ih.1 .pipe)
      | exec => exact parseexec_sound hs ih.2
  exact hall.1 nt

end Parsers

end Xv6.Sh
