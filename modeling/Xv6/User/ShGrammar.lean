import Mathlib.Data.List.Induction
import Mathlib.Logic.Function.Iterate
import Xv6.User.ShTokens

/-! # The grammar of the shell

The sentences of the grammar with their trees, and what the trees of the parsers are in it. -/
namespace Xv6.Sh

structure Redirection where
  file : List UInt8
  mode : ℕ
  fd : ℕ
  deriving DecidableEq, Repr

/-- A command under its redirections: later ones are outermost. -/
def nest (cmd : Cmd (List UInt8)) (rs : List Redirection) : Cmd (List UInt8) :=
  rs.foldl (fun cmd r => .redir cmd r.file r.mode r.fd) cmd

/-- `redir*`, where `redir ::= ('<' | '>' | '>>') word` -/
inductive Redirs : List Token → List Redirection → Prop where
  | nil : Redirs [] []
  | input {w : List UInt8} {ts : List Token} {rs : List Redirection} (h : Redirs ts rs) :
    Redirs (.sym '<'.toUInt8 :: .word w :: ts) (⟨w,O_RDONLY,0⟩ :: rs)
  | output {w : List UInt8} {ts : List Token} {rs : List Redirection} (h : Redirs ts rs) :
    Redirs (.sym '>'.toUInt8 :: .word w :: ts) (⟨w,O_WRONLY ||| O_CREATE,1⟩ :: rs)
  | append {w : List UInt8} {ts : List Token} {rs : List Redirection} (h : Redirs ts rs) :
    Redirs (.append :: .word w :: ts) (⟨w,O_WRONLY ||| O_CREATE,1⟩ :: rs)

/-- `(word redir*)*` -/
inductive Args : List Token → List (List UInt8) → List Redirection → Prop where
  | nil : Args [] [] []
  | word {w : List UInt8} {ts us : List Token} {ws : List (List UInt8)}
    {rs rs' : List Redirection} (h : Redirs ts rs) (h' : Args us ws rs') :
    Args (.word w :: (ts ++ us)) (w :: ws) (rs ++ rs')

inductive NonTerm where
  | line
  | pipe
  | exec
  deriving DecidableEq, Repr

/-- The tokens derive from the nonterminal, with the tree of the derivation. -/
inductive Derives : NonTerm → List Token → Cmd (List UInt8) → Prop where
  /-- `line ::= pipe '&'*` -/
  | last {ts : List Token} {c : Cmd (List UInt8)} (h : Derives .pipe ts c) (n : ℕ) :
    Derives .line (ts ++ List.replicate n (.sym '&'.toUInt8)) (Cmd.back^[n] c)
  /-- `line ::= pipe '&'* ';' line` -/
  | list {ts us : List Token} {c d : Cmd (List UInt8)} (h : Derives .pipe ts c) (n : ℕ)
    (h' : Derives .line us d) :
    Derives .line (ts ++ (List.replicate n (.sym '&'.toUInt8) ++ .sym ';'.toUInt8 :: us))
      (.list (Cmd.back^[n] c) d)
  /-- `pipe ::= exec` -/
  | single {ts : List Token} {c : Cmd (List UInt8)} (h : Derives .exec ts c) : Derives .pipe ts c
  /-- `pipe ::= exec '|' pipe` -/
  | pipe {ts us : List Token} {c d : Cmd (List UInt8)} (h : Derives .exec ts c)
    (h' : Derives .pipe us d) : Derives .pipe (ts ++ .sym '|'.toUInt8 :: us) (.pipe c d)
  /-- `exec ::= '(' line ')' redir*` -/
  | block {ts us : List Token} {c : Cmd (List UInt8)} {rs : List Redirection}
    (h : Derives .line ts c) (h' : Redirs us rs) :
    Derives .exec (.sym '('.toUInt8 :: (ts ++ .sym ')'.toUInt8 :: us)) (nest c rs)
  /-- `exec ::= redir* (word redir*)*` -/
  | simple {ts us : List Token} {ws : List (List UInt8)} {rs rs' : List Redirection}
    (h : Redirs ts rs) (h' : Args us ws rs') :
    Derives .exec (ts ++ us) (nest (.exec ws) (rs ++ rs'))

/-- Every simple command has fewer than `MAXARGS` words. -/
def Cmd.Bounded {α : Type} : Cmd α → Prop
  | .exec argv => argv.length < MAXARGS
  | .redir cmd _ _ _ => cmd.Bounded
  | .pipe left right => left.Bounded ∧ right.Bounded
  | .list left right => left.Bounded ∧ right.Bounded
  | .back cmd => cmd.Bounded

def Cmd.All {α : Type} (p : α → Prop) : Cmd α → Prop
  | .exec argv => ∀ w ∈ argv, p w
  | .redir cmd file _ _ => cmd.All p ∧ p file
  | .pipe left right => left.All p ∧ right.All p
  | .list left right => left.All p ∧ right.All p
  | .back cmd => cmd.All p

@[simp]
theorem bounded_nest (c : Cmd (List UInt8)) (rs : List Redirection) :
    (nest c rs).Bounded ↔ c.Bounded := by
  induction rs generalizing c with
  | nil => rfl
  | cons r rs ih => exact ih _

@[simp]
theorem bounded_backs {α : Type} (c : Cmd α) (n : ℕ) : (Cmd.back^[n] c).Bounded ↔ c.Bounded := by
  induction n generalizing c with
  | zero => rfl
  | succ n ih => exact ih _

theorem nest_append (c : Cmd (List UInt8)) (rs rs' : List Redirection) :
    nest c (rs ++ rs') = nest (nest c rs) rs' := List.foldl_append

theorem addArg_nest (ws : List (List UInt8)) (rs : List Redirection) (w : List UInt8) :
    (nest (.exec ws) rs).addArg w = nest (.exec (ws ++ [w])) rs := by
  induction rs using List.reverseRecOn with
  | nil => rfl
  | append_singleton rs r ih =>
    simp only [nest_append] at ih ⊢
    exact congrArg (Cmd.redir · r.file r.mode r.fd) ih

theorem map_addArg {α β : Type} (f : α → β) (c : Cmd α) (w : α) :
    (c.addArg w).map f = (c.map f).addArg (f w) := by
  induction c <;> simp_all [Cmd.addArg,Cmd.map]

theorem all_addArg {α : Type} {p : α → Prop} {c : Cmd α} {w : α} (hc : c.All p) (hw : p w) :
    (c.addArg w).All p := by
  induction c <;> simp_all [Cmd.addArg,Cmd.All]
  rintro v (hv | rfl)
  · exact hc v hv
  · exact hw

/-- The tree with the words that its pointers enclose. -/
abbrev Cmd.words (s : List UInt8) (c : Cmd Span) : Cmd (List UInt8) := c.map (Span.bytes s)

section Outcome
variable {α β : Type}

/-- A parser returns a value with the property or panics: it does not run out of fuel. -/
def Outcome (Q : α → ℕ → Prop) : Except Error (α × ℕ) → Prop
  | .ok (a,j) => Q a j
  | .error (.panic _) => True
  | .error .fuel => False

theorem bind_ok {x : Parser α} {g : α → Parser β} {i j : ℕ} {a : α} (h : x i = .ok (a,j)) :
    (x >>= g) i = g a j := by
  simp [bind,StateT.bind,h,Except.bind]

theorem Outcome.mono {P Q : α → ℕ → Prop} {r : Except Error (α × ℕ)} (h : Outcome P r)
    (hPQ : ∀ a j, P a j → Q a j) : Outcome Q r := by
  match r with
  | .ok (a,j) => exact hPQ a j h
  | .error (.panic _) => trivial
  | .error .fuel => exact h

theorem Outcome.bind {P : α → ℕ → Prop} {Q : β → ℕ → Prop} {x : Parser α} {g : α → Parser β}
    {i : ℕ} (h : Outcome P (x i)) (hg : ∀ a j, P a j → Outcome Q (g a j)) :
    Outcome Q ((x >>= g) i) := by
  cases hx : x i with
  | ok r =>
    rw [hx] at h
    rw [bind_ok (a := r.1) (j := r.2) hx]
    exact hg _ _ h
  | error e =>
    have : (x >>= g) i = .error e := by simp [Bind.bind,StateT.bind,hx,Except.bind]
    rw [this]
    rw [hx] at h
    cases e with
    | panic msg => trivial
    | fuel => exact h

end Outcome

end Xv6.Sh
