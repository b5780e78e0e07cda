import StackCompiler.Proofs.Token.Partition

/-!
# Texts and places of tokens

A token of a fixed kind is written in one way only. The end of input comes last, and tokens next to
each other stand at different places, as long as the counters of lines and columns have not come to
their end.

* `Token.Spelled`: the text of a token is that of its kind.
* **`Lexer.run_spelled`**: so it is for every token of a text.
* `Location.Precedes`: one place comes before another.
* **`Lexer.location_ne`**: tokens next to each other.
-/

namespace StackCompiler

/-! ## Texts -/

/-- **The text of a token of a fixed kind is that of its kind.** -/
def Token.Spelled (token : Token) : Prop :=
  token.kind.isFixed = true → token.kind.spelling? = some token.text

theorem spelling?_of_mem {entry : String × TokenKind} (h : entry ∈ TokenKind.reserved) :
    entry.2.spelling? = some entry.1 := by
  have hreserved : ∀ entry ∈ TokenKind.reserved, entry.2.spelling? = some entry.1 := by
    decide +kernel
  exact hreserved entry h

theorem spelling?_of_bracketKind? {c : Char} {kind : TokenKind} (h : bracketKind? c = some kind) :
    kind.spelling? = some (String.ofList [c]) := by
  unfold bracketKind? Bracket.ofOpening? Bracket.ofClosing? at h
  split at h
  · next bracket hopening =>
    cases h
    split at hopening <;> cases hopening <;> decide +kernel
  · obtain ⟨bracket, hclosing, rfl⟩ := Option.map_eq_some_iff.mp h
    split at hclosing <;> cases hclosing <;> decide +kernel

theorem spelling?_of_wordToken {word : String} (h : (wordToken word).1.isFixed = true) :
    (wordToken word).1.spelling? = some word := by
  unfold wordToken at h ⊢
  split
  · next heq => exact spelling?_of_mem (mem_of_searchSorted heq)
  · next heq => exact spelling?_of_mem (mem_of_searchSorted heq)
  · next heq =>
    rw [heq] at h
    cases h

/-- **A fixed kind is read from its own text.** -/
theorem spelling?_of_scanToken {text rest : List Char} {result : TokenKind × TokenValue}
    (h : scanToken (.start (text ++ rest)) = .ok result ⟨text.length, rest⟩)
    (hfixed : result.1.isFixed = true) : result.1.spelling? = some (String.ofList text) := by
  rcases scanToken_cases h with ⟨-, rfl, -⟩ | ⟨-, h⟩ | ⟨-, h⟩ | ⟨first, kind, hrest, hkind, rfl, -⟩ |
    ⟨-, h⟩
  · cases hfixed
  · obtain ⟨⟨_, hkind⟩, -⟩ := scanQuoted_comesToEnd _ _ _ h
    rw [hkind] at hfixed
    cases hfixed
  · obtain ⟨⟨_, hkind⟩, -⟩ := scanNumber_comesToEnd _ _ _ h
    rw [hkind] at hfixed
    cases hfixed
  · have htext : text = [first] := List.append_cancel_right (hrest.trans (List.singleton_append).symm)
    rw [htext]
    exact spelling?_of_bracketKind? hkind
  · obtain ⟨word, c, htake, h⟩ := Scanner.bind_succeeds.mp h
    cases htake
    obtain ⟨_, d, hend, h⟩ := Scanner.bind_succeeds.mp h
    obtain ⟨-, rfl⟩ := Scanner.expectEnd_eq_ok.mp hend
    injection h with hresult hcursor
    injection hcursor with _ hdrop
    have htext : (Cursor.start (text ++ rest)).rest.takeWhile isWordContinue = text := by
      have hsplit := List.takeWhile_append_dropWhile (p := isWordContinue) (l := text ++ rest)
      exact List.append_cancel_right (hdrop ▸ hsplit)
    rw [htext] at hresult
    rw [← hresult] at hfixed ⊢
    exact spelling?_of_wordToken hfixed

namespace Lexer

theorem reads_of_mem_run {source : List Char} {token : Token}
    (h : token ∈ (ofChars source).run.tokens) :
    ∃ (lexer after : Lexer) (gap : List Char), lexer.Reads gap token after := by
  obtain ⟨before, after, htokens⟩ := List.append_of_mem h
  obtain ⟨_, here, gap, next, -, -, hread⟩ := scans_of_run rfl htokens
  exact ⟨here, next, gap, hread⟩

/-- **Every token of a text is written as its kind is.** -/
theorem run_spelled (source : List Char) : ∀ token ∈ (ofChars source).run.tokens, token.Spelled := by
  intro token htoken hfixed
  obtain ⟨_, _, _, hread⟩ := reads_of_mem_run htoken
  have hspelling := spelling?_of_scanToken hread.scans hfixed
  rwa [String.ofList_toList] at hspelling

/-! ## Places -/

/-- The end of input comes last. -/
theorem isStop_of_before {source : List Char} {before after : List Token} {token : Token}
    (h : (ofChars source).run.tokens = before ++ token :: after) :
    ∀ t ∈ before, t.kind.isStop = false := by
  have hwhole := run_ofChars_whole source
  intro t ht
  cases herror : (ofChars source).run.error with
  | some e => exact hwhole.stops e herror t (by rw [h]; simp [ht])
  | none =>
    obtain ⟨inits, last, heq, -, hinits⟩ := hwhole.ends herror
    refine hinits t ?_
    obtain ⟨front, final, hfront⟩ : ∃ front final, token :: after = front ++ [final] :=
      ⟨_, _, (List.dropLast_append_getLast (List.cons_ne_nil token after)).symm⟩
    rw [heq, hfront, ← List.append_assoc] at h
    rw [(List.append_inj_left' h rfl)]
    exact List.mem_append_left _ ht

end Lexer

namespace Location

/-- **One place comes before another**: on an earlier line, or further to the left. -/
def Precedes (l l' : Location) : Prop := l.line < l'.line ∨ l.line = l'.line ∧ l.column < l'.column

theorem Precedes.trans {l l' l'' : Location} (h : l.Precedes l') (h' : l'.Precedes l'') :
    l.Precedes l'' := by
  unfold Precedes at *
  omega

theorem Precedes.ne {l l' : Location} (h : l.Precedes l') : l ≠ l' := by
  rintro rfl
  unfold Precedes at h
  omega

variable (l : Location) (cs : List Char)

theorem advance_le (c : Char) :
    (l.advance c).line ≤ l.line + 1 ∧ (l.advance c).column ≤ l.column + 1 := by
  unfold advance bump
  split
  · exact ⟨Nat.min_le_left .., Nat.le_add_left ..⟩
  · exact ⟨Nat.le_succ _, Nat.min_le_left ..⟩

theorem advanceBy_le : (l.advanceBy cs).line ≤ l.line + cs.length ∧
    (l.advanceBy cs).column ≤ l.column + cs.length := by
  induction cs generalizing l with
  | nil => exact ⟨Nat.le_refl _, Nat.le_refl _⟩
  | cons c cs ih =>
    have hfirst := l.advance_le c
    have hrest := ih (l.advance c)
    rw [advanceBy_cons, List.length_cons]
    omega

variable {l cs}

theorem precedes_advance {c : Char} (hline : l.line < limit) (hcolumn : l.column < limit) :
    l.Precedes (l.advance c) := by
  unfold advance bump
  split
  · exact .inl (Nat.lt_min.mpr ⟨Nat.lt_succ_self _, hline⟩)
  · exact .inr ⟨rfl, Nat.lt_min.mpr ⟨Nat.lt_succ_self _, hcolumn⟩⟩

/-- **Every character moves the place forward**, up to the end of the counters. -/
theorem precedes_advanceBy (hne : cs ≠ []) (hline : l.line + cs.length ≤ limit)
    (hcolumn : l.column + cs.length ≤ limit) : l.Precedes (l.advanceBy cs) := by
  induction cs generalizing l with
  | nil => exact absurd rfl hne
  | cons c cs ih =>
    rw [List.length_cons] at hline hcolumn
    have hfirst : l.Precedes (l.advance c) := precedes_advance (by omega) (by omega)
    rw [advanceBy_cons]
    cases cs with
    | nil => exact hfirst
    | cons d cs =>
      have hle := l.advance_le c
      exact hfirst.trans (ih (List.cons_ne_nil d cs) (by omega) (by omega))

end Location

namespace Lexer

theorem Scans.location {lexer after : Lexer} {pieces : List Piece} (h : lexer.Scans pieces after) :
    after.location = lexer.location.advanceBy (pieces.flatMap Piece.chars) := by
  induction h with
  | nil => rfl
  | cons hread _ ih =>
    rw [ih, hread.location, List.flatMap_cons, Piece.chars, ← Location.advanceBy_append]

/-- **Tokens next to each other stand at different places**, as long as no counter has come to its
end. -/
theorem location_ne {source : List Char} (hlength : source.length < Location.limit)
    {first second : Token} (h : [first, second] <:+: (ofChars source).run.tokens) :
    first.location ≠ second.location := by
  obtain ⟨before, after, htokens⟩ := h
  have hsplit : (ofChars source).run.tokens = (before ++ [first]) ++ second :: after := by
    rw [← htokens]
    simp
  obtain ⟨pieces, here, gap, next, hscans, hmap, hsecond⟩ := scans_of_run rfl hsplit
  obtain ⟨inits, p, rfl⟩ : ∃ inits p, pieces = inits ++ [p] := by
    have hne : pieces ≠ [] := by
      rintro rfl
      simp at hmap
    exact ⟨_, _, (List.dropLast_append_getLast hne).symm⟩
  obtain ⟨there, middle, hinits, hfirst, hrest⟩ := hscans.reads
  cases hrest
  obtain rfl : p.token = first := by
    rw [List.map_append] at hmap
    simpa using (List.append_inj_right' hmap rfl)
  have hstop := isStop_of_before hsplit p.token (List.mem_append_right _ (.head _))
  have htext : p.token.text.toList ≠ [] :=
    hfirst.text_ne_nil (TokenKind.ne_eof_of_isStop hstop)
  -- the second place is the first one, moved over the text of the first token and the gap
  have hplace : second.location =
      p.token.location.advanceBy (p.token.text.toList ++ gap) := by
    rw [hsecond.token_location, hfirst.location, hfirst.token_location, ← Location.advanceBy_append,
      ← Location.advanceBy_append, List.append_assoc]
  have hle : p.token.location.line + (p.token.text.toList ++ gap).length ≤ Location.limit ∧
      p.token.location.column + (p.token.text.toList ++ gap).length ≤ Location.limit := by
    have hinput := congrArg List.length hinits.input
    rw [hfirst.input, hsecond.input] at hinput
    simp only [ofChars, List.length_append] at hinput
    have hbound := Location.start.advanceBy_le (inits.flatMap Piece.chars ++ p.gap)
    have hfrom : p.token.location =
        Location.start.advanceBy (inits.flatMap Piece.chars ++ p.gap) := by
      rw [hfirst.token_location, hinits.location, Location.advanceBy_append]
      rfl
    rw [← hfrom, List.length_append] at hbound
    simp only [Location.start] at hbound
    rw [List.length_append]
    omega
  rw [hplace]
  exact (Location.precedes_advanceBy (by simp [htext]) hle.1 hle.2).ne

end Lexer

end StackCompiler
