import StackCompiler.Proofs.Grammar.Simulation

/-!
# Phrases without casts

A cast is the keyword `as` and all types that follow it. So what belongs to a cast can be told from the
tokens alone, and leaving a cast out of the tokens leaves it out of the phrase: no block begins with a
type, so what comes behind the cast is not taken for a part of it.

* `eraseTokens`: tokens without some casts.
* `Phrase.erase`, `DefinitionPhrase.erase`: phrases without them.
* **`Phrase.eraseTokens_tokens`**, **`eraseTokens_definitions`**: both are the same.
-/

namespace StackCompiler

variable (erased : Token → Bool)

/-! ## Tokens -/

/-- **Tokens without some casts**: the keywords that are chosen are left out, with the types behind
them. `inside` tells whether the last token was left out. -/
def eraseTokens : (inside : Bool) → List Token → List Token
  | _, [] => []
  | inside, token :: rest =>
    if token.kind = .keyword .asType ∧ erased token then eraseTokens true rest
    else if inside ∧ token.kind.isType then eraseTokens true rest
    else token :: eraseTokens false rest

theorem eraseTokens_sublist (inside : Bool) (tokens : List Token) :
    (eraseTokens erased inside tokens).Sublist tokens := by
  induction tokens generalizing inside with
  | nil => exact .slnil
  | cons token rest ih =>
    rw [eraseTokens]
    split_ifs
    · exact (ih true).cons token
    · exact (ih true).cons token
    · exact (ih false).cons_cons token

/-- A token that no cast begins with stays, with the tokens behind it. -/
theorem eraseTokens_cons {token : Token} (h : token.kind ≠ .keyword .asType) (rest : List Token) :
    eraseTokens erased false (token :: rest) = token :: eraseTokens erased false rest := by
  simp [eraseTokens, h]

theorem eraseTokens_append {tokens : List Token} (h : ∀ t ∈ tokens, t.kind ≠ .keyword .asType)
    (rest : List Token) :
    eraseTokens erased false (tokens ++ rest) = tokens ++ eraseTokens erased false rest := by
  induction tokens with
  | nil => rfl
  | cons token tokens ih =>
    obtain ⟨htoken, htokens⟩ := List.forall_mem_cons.mp h
    rw [List.cons_append, eraseTokens_cons erased htoken, ih htokens, List.cons_append]

theorem ne_asType_of_isType {token : Token} (h : token.kind.isType = true) :
    token.kind ≠ .keyword .asType := fun hkind => by
  rw [hkind] at h
  cases h

/-- The types of a cast that is left out go with it. -/
theorem eraseTokens_types {types : List Token} (htypes : ∀ t ∈ types, t.kind.isType)
    {rest : List Token} (hrest : Follows rest) :
    eraseTokens erased true (types ++ rest) = eraseTokens erased false rest := by
  induction types with
  | nil =>
    cases rest with
    | nil => rfl
    | cons token rest => simp [eraseTokens, hrest.1]
  | cons type types ih =>
    obtain ⟨htype, htypes⟩ := List.forall_mem_cons.mp htypes
    have hkind := ne_asType_of_isType htype
    simp only [List.cons_append, eraseTokens, hkind, htype, false_and, if_false, and_self, if_true]
    exact ih htypes

/-! ## Phrases -/

/-- Is the phrase a cast that is left out? -/
def Phrase.isErased {n : Nonterminal} : Phrase n → Bool
  | .cast keyword _ => erased keyword.1
  | _ => false

/-- **A phrase without some casts.** -/
def Phrase.erase : {n : Nonterminal} → Phrase n → Phrase n
  | _, .nested scope => .nested scope.erase
  | _, .branch keyword condition body chain =>
    .branch keyword condition.erase body.erase chain.erase
  | _, .loop keyword condition body => .loop keyword condition.erase body.erase
  | _, .cons first rest =>
    if first.isErased erased then rest.erase else .cons first.erase rest.erase
  | _, .enclosed bracket opener inside closer => .enclosed bracket opener inside.erase closer
  | _, .otherwise keyword body => .otherwise keyword body.erase
  | _, .elseIf keyword condition body chain =>
    .elseIf keyword condition.erase body.erase chain.erase
  | _, .expression token => .expression token
  | _, .reference name => .reference name
  | _, .call name keyword => .call name keyword
  | _, .cast keyword types => .cast keyword types
  | _, .assembly keyword literal => .assembly keyword literal
  | _, .nil => .nil
  | _, .stop => .stop

/-- A phrase that is left out is a cast. -/
theorem Phrase.eq_cast_of_isErased {p : Phrase .block} (h : p.isErased erased = true) :
    ∃ keyword types, p = .cast keyword types ∧ erased keyword.1 = true := by
  cases p with
  | cast keyword types => exact ⟨keyword, types, rfl, h⟩
  | _ => cases h

theorem ne_asType_of_isExpression {token : Token} (h : token.kind.isExpression = true) :
    token.kind ≠ .keyword .asType := fun hkind => by
  rw [hkind] at h
  cases h

theorem ne_asType_of_isStringLiteral {token : Token} (h : token.kind.isStringLiteral = true) :
    token.kind ≠ .keyword .asType := fun hkind => by
  rw [hkind] at h
  cases h

/-- A word of another kind begins no cast. -/
theorem Word.ne_asType {kind : TokenKind} (word : Word kind) (h : kind ≠ .keyword .asType) :
    word.1.kind ≠ .keyword .asType := fun hkind => h (word.2.symm.trans hkind)

/-- **Leaving casts out of the tokens of a phrase leaves them out of the phrase.** -/
theorem Phrase.eraseTokens_tokens {n : Nonterminal} (p : Phrase n) (tail : List Token) :
    match n with
    | .block => p.isErased erased = false → eraseTokens erased false (p.tokens ++ tail) =
        (p.erase erased).tokens ++ eraseTokens erased false tail
    | .blocks => Follows tail → eraseTokens erased false (p.tokens ++ tail) =
        (p.erase erased).tokens ++ eraseTokens erased false tail
    | .scope | .chain => eraseTokens erased false (p.tokens ++ tail) =
        (p.erase erased).tokens ++ eraseTokens erased false tail := by
  induction p generalizing tail with
  | expression token =>
    exact fun _ => eraseTokens_cons erased (ne_asType_of_isExpression token.2) tail
  | reference name => exact fun _ => eraseTokens_cons erased (name.ne_asType (by decide)) tail
  | call name keyword =>
    have hkinds : ∀ t ∈ [name.1, keyword.1], t.kind ≠ .keyword .asType := by
      simpa using ⟨name.ne_asType (by decide), keyword.ne_asType (by decide)⟩
    exact fun _ => eraseTokens_append erased hkinds tail
  | cast keyword types =>
    intro hkept
    have hkeyword : erased keyword.1 = false := hkept
    simp only [Phrase.tokens, Phrase.erase, List.cons_append, eraseTokens, hkeyword, and_false,
      Bool.false_eq_true, false_and, if_false]
    rw [eraseTokens_append erased fun t ht => ne_asType_of_isType (types.2.2 t ht)]
  | nested scope ih => exact fun _ => ih tail
  | branch keyword condition body chain ihc ihb ihch =>
    intro _
    simp only [Phrase.tokens, Phrase.erase, List.cons_append, List.append_assoc,
      eraseTokens_cons erased (keyword.ne_asType (by decide)), ihc, ihb, ihch]
  | loop keyword condition body ihc ihb =>
    intro _
    simp only [Phrase.tokens, Phrase.erase, List.cons_append, List.append_assoc,
      eraseTokens_cons erased (keyword.ne_asType (by decide)), ihc, ihb]
  | assembly keyword literal =>
    have hkinds : ∀ t ∈ [keyword.1, literal.1], t.kind ≠ .keyword .asType := by
      simpa using ⟨keyword.ne_asType (by decide), ne_asType_of_isStringLiteral literal.2⟩
    exact fun _ => eraseTokens_append erased hkinds tail
  | nil => exact fun _ => rfl
  | cons first rest ihf ihr =>
    intro htail
    have hrest := ihr tail htail
    cases hfirst : first.isErased erased with
    | true =>
      obtain ⟨keyword, types, rfl, hkeyword⟩ := Phrase.eq_cast_of_isErased erased hfirst
      have hfollows : Follows (rest.tokens ++ tail) := rest.follows tail htail
      simp only [Phrase.erase, hfirst, if_true, ← hrest]
      simp only [Phrase.tokens, List.cons_append, List.append_assoc, eraseTokens, keyword.2,
        hkeyword, and_self, if_true]
      exact eraseTokens_types erased types.2.2 hfollows
    | false =>
      simp only [Phrase.tokens, Phrase.erase, hfirst, Bool.false_eq_true, if_false,
        List.append_assoc, ihf _ hfirst, hrest]
  | enclosed bracket opener inside closer ih =>
    simp only [Phrase.tokens, Phrase.erase, List.cons_append, List.append_assoc, List.nil_append,
      eraseTokens_cons erased (opener.ne_asType (by simp)), ih _ (follows_closing closer tail),
      eraseTokens_cons erased (closer.ne_asType (by simp))]
  | stop => rfl
  | otherwise keyword body ih =>
    simp only [Phrase.tokens, Phrase.erase, List.cons_append,
      eraseTokens_cons erased (keyword.ne_asType (by decide)), ih]
  | elseIf keyword condition body chain ihc ihb ihch =>
    simp only [Phrase.tokens, Phrase.erase, List.cons_append, List.append_assoc,
      eraseTokens_cons erased (keyword.ne_asType (by decide)), ihc, ihb, ihch]

/-! ## Definitions -/

/-- What is defined, without some casts. -/
def SubjectPhrase.erase : SubjectPhrase → SubjectPhrase
  | .function f => .function { f with inside := f.inside.erase erased }
  | .memory m => .memory m
  | .string s => .string s

/-- **A definition without some casts.** -/
def DefinitionPhrase.erase (d : DefinitionPhrase) : DefinitionPhrase :=
  ⟨d.place, d.subject.erase erased⟩

/-- There is no cast in a signature. -/
theorem SignaturePhrase.ne_asType (s : SignaturePhrase) :
    ∀ t ∈ s.tokens, t.kind ≠ .keyword .asType := by
  have hclause {word : Keyword} (hword : word ≠ .asType) (c : Option (ClausePhrase word)) :
      ∀ t ∈ c.elim [] ClausePhrase.tokens, t.kind ≠ .keyword .asType := by
    cases c with
    | none => exact List.forall_mem_nil _
    | some c =>
      refine List.forall_mem_cons.mpr ⟨c.keyword.ne_asType fun h => hword (by injection h), ?_⟩
      exact fun t ht => ne_asType_of_isType (c.types.2.2 t ht)
  exact List.forall_mem_append.mpr ⟨hclause (by decide) s.requires, hclause (by decide) s.returns⟩

theorem parensTokens_ne_asType
    (parens : Option (Word (.opening .paren) × SignaturePhrase × Word (.closing .paren))) :
    ∀ t ∈ parensTokens parens, t.kind ≠ .keyword .asType := by
  cases parens with
  | none => exact List.forall_mem_nil _
  | some parens =>
    obtain ⟨opener, signature, closer⟩ := parens
    refine List.forall_mem_cons.mpr ⟨opener.ne_asType (by decide), ?_⟩
    exact List.forall_mem_append.mpr
      ⟨signature.ne_asType, List.forall_mem_singleton.mpr (closer.ne_asType (by decide))⟩

theorem IsSize.ne_asType {token : Token} (h : IsSize token) : token.kind ≠ .keyword .asType := by
  rcases h with ⟨width, hkind⟩ | ⟨width, -, hkind, -⟩ <;> rw [hkind] <;> exact fun h => by cases h

theorem SubjectPhrase.eraseTokens_tokens (s : SubjectPhrase) (tail : List Token) :
    eraseTokens erased false (s.tokens ++ tail) =
      (s.erase erased).tokens ++ eraseTokens erased false tail := by
  cases s with
  | function f =>
    have hinside := f.inside.eraseTokens_tokens erased (f.closer.1 :: tail)
      (follows_closing f.closer tail)
    simp only [SubjectPhrase.tokens, SubjectPhrase.erase, List.cons_append, List.append_assoc,
      List.nil_append, eraseTokens_cons erased (f.keyword.ne_asType (by decide)),
      eraseTokens_cons erased (f.name.ne_asType (by decide)),
      eraseTokens_append erased (parensTokens_ne_asType f.parens),
      eraseTokens_append erased f.signature.ne_asType,
      eraseTokens_cons erased (f.opener.ne_asType (by decide)), hinside,
      eraseTokens_cons erased (f.closer.ne_asType (by decide))]
  | memory m =>
    have hkinds : ∀ t ∈ [m.keyword.1, m.name.1, m.capacity.1], t.kind ≠ .keyword .asType := by
      simpa using ⟨m.keyword.ne_asType (by decide), m.name.ne_asType (by decide),
        m.capacity.2.ne_asType⟩
    exact eraseTokens_append erased hkinds tail
  | string s =>
    have hkinds : ∀ t ∈ [s.keyword.1, s.name.1, s.literal.1], t.kind ≠ .keyword .asType := by
      simpa using ⟨s.keyword.ne_asType (by decide), s.name.ne_asType (by decide),
        ne_asType_of_isStringLiteral s.literal.2⟩
    exact eraseTokens_append erased hkinds tail

theorem DefinitionPhrase.eraseTokens_tokens (d : DefinitionPhrase) (tail : List Token) :
    eraseTokens erased false (d.tokens ++ tail) =
      (d.erase erased).tokens ++ eraseTokens erased false tail := by
  obtain ⟨place, subject⟩ := d
  have hplace : ∀ t ∈ placeTokens place, t.kind ≠ .keyword .asType := by
    cases place with
    | none => exact List.forall_mem_nil _
    | some place =>
      simpa [placeTokens] using ⟨place.1.ne_asType (by decide), place.2.ne_asType (by decide)⟩
  simp only [DefinitionPhrase.tokens, DefinitionPhrase.erase, List.append_assoc,
    eraseTokens_append erased hplace, subject.eraseTokens_tokens]

/-- **Leaving casts out of the tokens of definitions leaves them out of the definitions.** -/
theorem eraseTokens_definitions (ds : List DefinitionPhrase) :
    eraseTokens erased false (ds.flatMap DefinitionPhrase.tokens) =
      (ds.map (DefinitionPhrase.erase erased)).flatMap DefinitionPhrase.tokens := by
  induction ds with
  | nil => rfl
  | cons d ds ih =>
    rw [List.flatMap_cons, d.eraseTokens_tokens, ih, List.map_cons, List.flatMap_cons]

end StackCompiler
