import StackCompiler.Proofs.Grammar.Faults
import StackCompiler.Proofs.Grammar.Simulation
import StackCompiler.Proofs.Token.Joining
import StackCompiler.Proofs.Token.Lookahead

/-!
# Parsing while reading

Parsing is a fold over the tokens of a run. A parser can as well ask for one token after the other,
stop at its first error, and put a token back if a rule has looked at it and leaves it to the next
one. Both come to the same end.

* `parseOn`: a parser that asks for tokens and puts them back.
* **`parseOn_eq_parseTokens`**: parsing what has been read before.
* `parseOn_not_overflow`: there is always room for a token that is put back.
-/

namespace StackCompiler

/-- **The end of a unit**, or the error that the lexer stopped at. -/
def endUnit : Option LexError → ParseM (List DefId)
  | some e => throw ⟨.lexical e.cause, some e.location⟩
  | none => return (← get).symbols.map Prod.snd

/-- **Parses from a state on, reading one token at a time.** How often a token is put back and read
again depends on the token and on the state that it is read in. -/
def parseOn (options : ParseOptions) (times : ParseState → Token → Nat) (state : ParseState)
    (lexer : Lexer) : ParseM (List DefId) :=
  match h : lexer.nextAgain (times state) with
  | (.error e, _) => endUnit (some e)
  | (.ok token, after) => do
    let next ← step options state token
    if hstop : token.kind.isStop then endUnit none
    else
      have : after.todo < lexer.todo := Lexer.todo_next_lt
        ((Lexer.nextAgain_eq_next lexer (times state)).symm.trans h)
        (TokenKind.ne_eof_of_isStop (Bool.eq_false_iff.mpr hstop))
      parseOn options times next after
termination_by lexer.todo

section Reading

variable (options : ParseOptions) (times : ParseState → Token → Nat)

/-- One token is read as if it had never been put back. -/
theorem parseOn_eq (state : ParseState) (lexer : Lexer) :
    parseOn options times state lexer = match lexer.next with
      | (.error e, _) => endUnit (some e)
      | (.ok token, after) => step options state token >>= fun next =>
        if token.kind.isStop then endUnit none else parseOn options times next after := by
  rw [parseOn, ← Lexer.nextAgain_eq_next lexer (times state)]
  split <;> next h => simp only [h, dite_eq_ite]

/-- **Parsing while reading is parsing what a run reads**, from any state on. -/
theorem parseOn_eq_run (state : ParseState) (lexer : Lexer) :
    parseOn options times state lexer =
      run options state lexer.run.tokens >>= fun _ => endUnit lexer.run.error := by
  fun_induction Lexer.run lexer generalizing state with
  | case1 lexer e after h => rw [parseOn_eq, h]; rfl
  | case2 lexer token after h hstop =>
    rw [parseOn_eq, h, run_cons, bind_assoc]
    simp only [if_pos hstop]
    rfl
  | case3 lexer token after h hstop _ rest ih =>
    rw [parseOn_eq, h, run_cons, bind_assoc]
    simp only [if_neg hstop, ih]
    rfl

/-- **A parser that reads one token at a time, and puts back whatever it likes, does what parsing
does** with all tokens of the run: it gives the same definitions or the same error, and leaves the same
workspace behind. -/
theorem parseOn_eq_parseTokens (lexer : Lexer) :
    parseOn options times .definition lexer =
      parseTokens options lexer.run.tokens lexer.run.error :=
  parseOn_eq_run options times .definition lexer

/-- **No token that it puts back is one too many to wait.** -/
theorem parseOn_not_overflow {lexer : Lexer} (hpending : lexer.pending = none) {w w' : Workspace}
    {e : ParseError} (h : parseOn options times .definition lexer w = .error e w') :
    e.cause ≠ .lexical .lookaheadOverflow := by
  intro hcause
  rw [parseOn_eq_parseTokens] at h
  obtain ⟨stopped, herror, hstopped⟩ := parseTokens_lexical h (by rw [hcause]; rfl)
  rw [hcause] at hstopped
  exact (Lexer.run_whole hpending).error_cause stopped herror (ParseFault.lexical.inj hstopped).symm

end Reading

end StackCompiler
