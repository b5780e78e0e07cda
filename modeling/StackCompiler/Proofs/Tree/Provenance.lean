import StackCompiler.Proofs.Grammar.Invariant
import StackCompiler.Proofs.Token.Strings
import StackCompiler.Proofs.Token.Texts

/-!
# Where literals come from

The literals that an accepted text leaves in a store are tokens of the text, each of the kind that its
place asks for. A token of a text is a part of it, and what it carries is what this part spells.

* `Token.StandsIn`: a token of a text, and its place.
* `Token.SpellsInteger`, `Token.SpellsBytes`: what the text of a literal denotes.
* **`Token.StandsIn.integer`**, **`Token.StandsIn.quoted`**: literals carry what their texts denote.
* **`madeFrom_of_parseChars`**: the literals of an accepted text.
-/

namespace StackCompiler

/-! ## Tokens of a text -/

/-- **A token stands in a text**: it is read there, and its own text begins at its place. -/
structure Token.StandsIn (source : List Char) (token : Token) : Prop where
  mem : token ∈ (Lexer.ofChars source).run.tokens
  place : ∃ before after, source = before ++ (token.text.toList ++ after) ∧
    token.location = Location.start.advanceBy before

/-- **The token is written as an integer**: with a sign or a base, in digits, and with its type, which
is that of 64-bit numbers with a sign if none is written. -/
def Token.SpellsInteger (token : Token) (value : Int) : Prop :=
  ∃ negative base digits suffix,
    Numeral.IntegerText negative base digits suffix token.text.toList ∧
      token.kind = .number (suffix.getD (.signed .w64)) ∧
      value = Numeral.signedValue negative base digits

/-- **The token is written as a string literal** of some bytes. -/
def Token.SpellsBytes (token : Token) (terminated : Bool) (bytes : List UInt8) : Prop :=
  QuotedText terminated bytes token.text.toList ∧ token.kind = .string terminated

/-- A token of a run is read from the text behind the tokens before it. -/
theorem Lexer.scanToken_of_mem_run {source : List Char} {token : Token}
    (h : token ∈ (ofChars source).run.tokens) : ∃ before after,
      source = before ++ (token.text.toList ++ after) ∧
      token.location = Location.start.advanceBy before ∧
      scanToken (.start (token.text.toList ++ after)) =
        .ok (token.kind, token.value) ⟨token.text.toList.length, after⟩ := by
  obtain ⟨first, rest, htokens⟩ := List.append_of_mem h
  obtain ⟨pieces, here, gap, next, hscans, -, hread⟩ := scans_of_run rfl htokens
  refine ⟨pieces.flatMap Piece.chars ++ gap, next.input, ?_, ?_, hread.scans⟩
  · have hinput : source = pieces.flatMap Piece.chars ++ here.input := hscans.input
    rw [hinput, hread.input, List.append_assoc]
  · rw [hread.token_location, hscans.location, ← Location.advanceBy_append]
    rfl

theorem Token.standsIn_of_mem {source : List Char} {token : Token}
    (h : token ∈ (Lexer.ofChars source).run.tokens) : token.StandsIn source := by
  obtain ⟨before, after, hsource, hlocation, -⟩ := Lexer.scanToken_of_mem_run h
  exact ⟨h, before, after, hsource, hlocation⟩

/-! ## What literals denote -/

/-- A token that is no literal. -/
def TokenKind.isPlain (kind : TokenKind) : Bool := !kind.isStringLiteral && !kind.isNumericLiteral

theorem TokenKind.eq_string_of_isStringLiteral {kind : TokenKind} (h : kind.isStringLiteral = true) :
    ∃ terminated, kind = .string terminated := by
  cases kind with
  | string terminated => exact ⟨terminated, rfl⟩
  | _ => cases h

theorem wordToken_isPlain (word : String) : (wordToken word).1.isPlain = true := by
  unfold wordToken
  split
  · rfl
  · next kind _ h =>
    have hfixed := TokenKind.isFixed_of_ofSpelling? h
    cases kind with
    | opening | closing | operator | typeName | keyword => rfl
    | number | string | identifier | eof | none => cases hfixed
  · rfl

/-- **Literals are read by the scanners of literals.** -/
theorem scanToken_literal {c d : Cursor} {result : TokenKind × TokenValue}
    (h : scanToken c = .ok result d) :
    ((∃ rest, c.rest = '\x22' :: rest) ∧ scanQuoted c = .ok result d) ∨
      scanNumber c = .ok result d ∨ result.1.isPlain = true := by
  rcases scanToken_cases h with ⟨-, rfl, -⟩ | hquoted | ⟨-, hnumber⟩ | ⟨_, kind, -, hkind, rfl, -⟩ |
    ⟨-, hword⟩
  · exact .inr (.inr rfl)
  · exact .inl hquoted
  · exact .inr (.inl hnumber)
  · have hbracket := isBracket_of_bracketKind? hkind
    refine .inr (.inr ?_)
    cases kind with
    | opening | closing => rfl
    | operator | typeName | keyword | number | string | identifier | eof | none => cases hbracket
  · obtain ⟨word, c', -, hword⟩ := Scanner.bind_succeeds.mp hword
    obtain ⟨_, d', -, hword⟩ := Scanner.bind_succeeds.mp hword
    cases hword
    exact .inr (.inr (wordToken_isPlain _))

section Evaluation

variable {n : Numeral} {text : List Char} {word : String} {type : NumberType} {value : TokenValue}

/-- A real number is of a floating point type. -/
theorem Numeral.Written.isFloat_type (h : n.Written text)
    (hreal : (n.isReal || (n.suffix.map NumberType.isFloat).getD false) = true) :
    (n.suffix.getD .float64).isFloat = true := by
  cases hsuffix : n.suffix with
  | none => rfl
  | some type =>
    rw [hsuffix] at hreal
    exact (Bool.or_eq_true_iff.mp hreal).elim (fun hfloat => h.isFloat hfloat type hsuffix) id

/-- An integer that is read belongs to its type. -/
theorem Numeral.mem_range_of_integerToken (htype : type.isFloat = false)
    (h : n.integerToken type word = .ok value) :
    n.integerValue ∈ type.range ∧ value = type.valueOf n.integerValue := by
  obtain ⟨hin, hout⟩ := n.integerToken_eq htype word
  by_cases hrange : n.integerValue ∈ type.range
  · rw [hin hrange] at h
    exact ⟨hrange, (Except.ok.inj h).symm⟩
  · obtain ⟨target, htarget⟩ := hout hrange
    rw [htarget] at h
    cases h

/-- **A numeral of an integer type is written as an integer**, and its value is the one that is
written, which the type has. -/
theorem Numeral.Written.integer (h : n.Written text) (heval : n.evaluate word = .ok (type, value))
    (htype : type.isFloat = false) :
    IntegerText n.negative n.base n.integer n.suffix text ∧ type = n.suffix.getD (.signed .w64) ∧
      signedValue n.negative n.base n.integer ∈ type.range ∧
      value = type.valueOf (signedValue n.negative n.base n.integer) := by
  unfold evaluate at heval
  split_ifs at heval with hreal
  · have hfloat := h.isFloat_type hreal
    dsimp only at heval
    cases hbits : n.realBits (n.suffix.getD .float64) word with
    | error cause =>
      rw [hbits] at heval
      cases heval
    | ok bits =>
      rw [hbits] at heval
      cases heval
      rw [hfloat] at htype
      cases htype
  · obtain ⟨hnot, hsuffix⟩ := Bool.or_eq_false_iff.mp (Bool.eq_false_iff.mpr hreal)
    have hform := h.integerText hnot fun type htype => by
      rw [Option.mem_def.mp htype] at hsuffix
      exact hsuffix
    dsimp only at heval
    cases htoken : n.integerToken (n.suffix.getD (.signed .w64)) word with
    | error cause =>
      rw [htoken] at heval
      cases heval
    | ok value =>
      rw [htoken] at heval
      cases heval
      rw [← integerValue_eq]
      exact ⟨hform, rfl, mem_range_of_integerToken htype htoken⟩

end Evaluation

namespace Token.StandsIn

variable {source : List Char} {token : Token}

/-- **The value of an integer literal is the integer that is written.** -/
theorem integer (h : token.StandsIn source) {type : NumberType} (hkind : token.kind = .number type)
    (htype : type.isFloat = false) :
    ∃ value, token.SpellsInteger value ∧ value ∈ type.range ∧ token.value = type.valueOf value := by
  obtain ⟨-, after, -, -, hscan⟩ := Lexer.scanToken_of_mem_run h.mem
  rw [hkind] at hscan
  rcases scanToken_literal hscan with ⟨-, hquoted⟩ | hnumber | hplain
  · obtain ⟨_, hstring⟩ := (scanQuoted_comesToEnd _ _ _ hquoted).1
    cases hstring
  · obtain ⟨n, type', value, hn, -, heval, hresult⟩ := scanNumber_eq_ok.mp hnumber
    obtain ⟨rfl, rfl⟩ : type = type' ∧ token.value = value := by simpa using hresult
    obtain ⟨text, htext, -, hwritten⟩ := Numeral.written_of_scan hn
    obtain rfl : token.text.toList = text := List.append_cancel_right htext
    obtain ⟨hform, hsuffix, hrange, hvalue⟩ := hwritten.integer heval htype
    exact ⟨_, ⟨_, _, _, _, hform, hkind.trans (congrArg _ hsuffix), rfl⟩, hrange, hvalue⟩
  · cases hplain

/-- **The bytes of a string literal are those that are written.** -/
theorem quoted (h : token.StandsIn source) {terminated : Bool}
    (hkind : token.kind = .string terminated) :
    ∃ bytes, token.SpellsBytes terminated bytes ∧ token.value = .bytes bytes := by
  obtain ⟨-, after, -, -, hscan⟩ := Lexer.scanToken_of_mem_run h.mem
  rw [hkind] at hscan
  rcases scanToken_literal hscan with ⟨⟨rest, hrest⟩, hquoted⟩ | hnumber | hplain
  · change token.text.toList ++ after = _ at hrest
    rw [Cursor.start, hrest, scanQuoted_cons] at hquoted
    obtain ⟨text, hsplit, -, terminated', bytes, htext, -, hresult⟩ :=
      (quotedTail_spells 0).sound hquoted
    obtain ⟨rfl, hvalue⟩ : terminated = terminated' ∧ token.value = .bytes bytes := by
      simpa using hresult
    have hwhole : token.text.toList = '\x22' :: text := by
      refine List.append_cancel_right (hrest.trans ?_)
      rw [hsplit]
      rfl
    exact ⟨bytes, ⟨hwhole ▸ htext, hkind⟩, hvalue⟩
  · obtain ⟨_, hnumeric⟩ := (scanNumber_comesToEnd _ _ _ hnumber).1
    cases hnumeric
  · cases hplain

end Token.StandsIn

/-! ## Literals of a store -/

/-- What all entries have in common is kept by a change that keeps it. -/
theorem forall_mem_modify {α : Type} {P : α → Prop} {f : α → α} (hf : ∀ a, P a → P (f a))
    {xs : Array α} (h : ∀ a ∈ xs, P a) (i : Nat) : ∀ a ∈ xs.modify i f, P a := by
  intro a ha
  obtain ⟨j, hj⟩ := Array.mem_iff_getElem?.mp ha
  rw [Array.getElem?_modify] at hj
  split_ifs at hj
  · obtain ⟨b, hb, rfl⟩ := Option.map_eq_some_iff.mp hj
    exact hf b (h b (Array.mem_of_getElem? hb))
  · exact h a (Array.mem_of_getElem? hj)

/-- **The literals of a store come from some source**, each of the kind that its place asks for. -/
structure Store.MadeFrom (source : Token → Prop) (store : Store) : Prop where
  blocks : ∀ block ∈ store.blocks, block.MadeFrom source
  defs : ∀ d ∈ store.defs, d.body.MadeFrom source

namespace Store.MadeFrom

variable {source : Token → Prop} {store : Store}

theorem empty (maxNodes : Nat) : (Store.empty maxNodes).MadeFrom source where
  blocks _ hblock := absurd hblock (Array.not_mem_empty _)
  defs _ hd := absurd hd (Array.not_mem_empty _)

theorem block? (h : store.MadeFrom source) {id : BlockId} {block : Block}
    (hblock : store.block? id = some block) : block.MadeFrom source :=
  h.blocks _ (Array.mem_of_getElem? (Store.block?_eq_some.mp hblock).2)

theorem def? (h : store.MadeFrom source) {id : DefId} {d : Definition}
    (hd : store.def? id = some d) : d.body.MadeFrom source :=
  h.defs _ (Array.mem_of_getElem? (Store.def?_eq_some.mp hd).2)

theorem withBlock (h : store.MadeFrom source) {block : Block} (hblock : block.MadeFrom source) :
    (store.withBlock block).MadeFrom source where
  blocks other hother := (Array.mem_push.mp hother).elim (h.blocks other) (· ▸ hblock)
  defs := h.defs

theorem withDef (h : store.MadeFrom source) {d : Definition} (hd : d.body.MadeFrom source) :
    (store.withDef d).MadeFrom source where
  blocks := h.blocks
  defs other hother := (Array.mem_push.mp hother).elim (h.defs other) (· ▸ hd)

theorem modifyBlock (h : store.MadeFrom source) (id : BlockId) {f : Block → Block}
    (hf : ∀ block, block.MadeFrom source → (f block).MadeFrom source) :
    (store.modifyBlock id f).MadeFrom source := by
  unfold Store.modifyBlock
  split_ifs
  · exact ⟨forall_mem_modify hf h.blocks id.index, h.defs⟩
  · exact h

theorem modifyDef (h : store.MadeFrom source) (id : DefId) {f : Definition → Definition}
    (hf : ∀ d, (f d).body = d.body) : (store.modifyDef id f).MadeFrom source := by
  have hkeeps : ∀ d, d.body.MadeFrom source → (f d).body.MadeFrom source := fun d hd => by
    rwa [hf d]
  unfold Store.modifyDef
  split_ifs
  · exact ⟨h.blocks, forall_mem_modify hkeeps h.defs id.index⟩
  · exact h

end Store.MadeFrom

theorem madeFrom_invariant (source : Token → Prop) (options : ParseOptions) :
    LiteralInvariant source options fun w => w.store.MadeFrom source where
  number h := h
  block _ hblock h := h.withBlock hblock
  reference {w name target} _ h := by
    have hused := h.modifyDef target (f := ({ · with used := true })) fun _ => rfl
    have hmade : Block.MadeFrom source (.reference name target) := trivial
    exact hused.withBlock hmade
  change id _ _ hf h := h.modifyBlock id hf
  definition _ hd h := h.withDef hd

/-- **The literals of an accepted text are tokens of it.** -/
theorem madeFrom_of_parseChars {options : ParseOptions} {before after : Store} {text : List Char}
    {unit : List DefId} (h : parseChars options before text = ⟨.ok unit, after⟩)
    (hbefore : before.MadeFrom (Token.StandsIn text)) : after.MadeFrom (Token.StandsIn text) := by
  obtain ⟨ds, w', ⟨last, htokenize, -⟩, hbuild, -, rfl⟩ := parseChars_eq_ok.mp h
  have hsource : ∀ t ∈ ds.flatMap DefinitionPhrase.tokens, t.StandsIn text := by
    intro t ht
    refine Token.standsIn_of_mem ?_
    rw [(tokenize_eq_ok.mp htokenize).2]
    exact List.mem_append_left _ ht
  exact (madeFrom_invariant _ options).definitions ds hsource _ _ _ hbuild hbefore

end StackCompiler
