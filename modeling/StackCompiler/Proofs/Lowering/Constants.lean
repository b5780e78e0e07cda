import StackCompiler.Proofs.Lowering.Leaves
import StackCompiler.Proofs.Tree.Provenance

/-!
# Constants

Integers, sizes and bytes go through the lexer, the parser and code generation and come out as decimal
numerals. These denote what was written.

* `readInteger?`, `readBytes?`: what numerals and operands of assembly denote.
* `readInteger?_toString`, `readBytes?_intercalate`: numbers are read back from their numerals.
* **`KeepsConstants`**: the constants of a text in its code.
* **`compile_keepsConstants`**: every source that is compiled.
-/

namespace StackCompiler

/-! ## Numerals of assembly -/

/-- The number that decimal digits denote. -/
def readNatural? (digits : List Char) : Option Nat :=
  if digits ≠ [] ∧ digits.all Base.decimal.isDigit = true then
    some (Base.decimal.ofDigits digits)
  else none

/-- **The integer that a numeral denotes**: decimal digits, perhaps with a minus in front. -/
def readInteger? : List Char → Option Int
  | '-' :: digits => (readNatural? digits).map fun n : Nat => -(n : Int)
  | digits => (readNatural? digits).map fun n : Nat => (n : Int)

/-- The byte that an operand denotes, which may stand behind blanks. -/
def readByte? (operand : List Char) : Option UInt8 :=
  (readNatural? (operand.dropWhile (· == ' '))).bind fun n =>
    if n < 256 then some (UInt8.ofNat n) else none

/-- **The bytes that operands denote**, which stand between commas. -/
def readBytes? (operands : List Char) : Option (List UInt8) :=
  (operands.splitOn ',').mapM readByte?

section Numerals

variable {n : Nat} {c : Char}

theorem isDigit_of_mem_decimal (h : c ∈ Nat.toDigits 10 n) : Base.decimal.isDigit c = true :=
  Base.isDigit_of_mem_toDigits h

/-- A character that is no digit does not stand in a number. -/
theorem not_mem_decimal (hc : Base.decimal.isDigit c = false) : c ∉ Nat.toDigits 10 n := by
  intro h
  rw [isDigit_of_mem_decimal h] at hc
  cases hc

theorem readNatural?_toDigits (n : Nat) : readNatural? (Nat.toDigits 10 n) = some n := by
  have hall : (Nat.toDigits 10 n).all Base.decimal.isDigit = true :=
    List.all_eq_true.mpr fun _ => isDigit_of_mem_decimal
  rw [readNatural?, if_pos ⟨Nat.toDigits_ne_nil, hall⟩]
  exact congrArg some (Base.ofDigits_toDigits .decimal n)

end Numerals

/-- **An integer is read back from its numeral.** -/
theorem readInteger?_toString (n : Int) : readInteger? (toString n).toList = some n := by
  rw [Int.toString_eq_repr, Int.repr_eq_if]
  split_ifs with hn
  · have hminus : '-' ∉ Nat.toDigits 10 n.toNat := not_mem_decimal (by decide)
    rw [Nat.toList_repr]
    unfold readInteger?
    split
    · next digits heq =>
      rw [heq] at hminus
      exact absurd (.head _) hminus
    · rw [readNatural?_toDigits, Option.map_some, Int.toNat_of_nonneg hn]
  · have hminus : ("-" ++ (-n).toNat.repr).toList = '-' :: Nat.toDigits 10 (-n).toNat := by simp
    rw [hminus, readInteger?, readNatural?_toDigits, Option.map_some,
      Int.toNat_of_nonneg (by omega), Int.neg_neg]

theorem readByte?_toDigits {blanks : List Char} (hblanks : ∀ c ∈ blanks, (c == ' ') = true)
    (b : UInt8) : readByte? (blanks ++ Nat.toDigits 10 b.toNat) = some b := by
  have hdrop : (Nat.toDigits 10 b.toNat).dropWhile (· == ' ') = Nat.toDigits 10 b.toNat := by
    have hblank : ' ' ∉ Nat.toDigits 10 b.toNat := not_mem_decimal (by decide)
    cases hdigits : Nat.toDigits 10 b.toNat with
    | nil => rfl
    | cons c digits =>
      rw [hdigits, List.mem_cons, not_or] at hblank
      rw [List.dropWhile_cons_of_neg (by simpa using Ne.symm hblank.1)]
  rw [readByte?, List.dropWhile_append_of_pos hblanks, hdrop, readNatural?_toDigits, Option.bind_some,
    if_pos b.toNat_lt, UInt8.ofNat_toNat]

/-- A blank behind every comma belongs to the operand behind it. -/
theorem intercalate_comma (first : List Char) (rest : List (List Char)) :
    [',', ' '].intercalate (first :: rest) = [','].intercalate (first :: rest.map (' ' :: ·)) := by
  induction rest generalizing first with
  | nil => simp
  | cons second rest ih =>
    rw [List.intercalate_cons_cons, ih second, List.map_cons, List.intercalate_cons_cons,
      List.intercalate_cons_cons_left]
    simp

/-- **Bytes are read back from the operands that they are written as.** -/
theorem readBytes?_intercalate (b : UInt8) (bytes : List UInt8) :
    readBytes? (", ".intercalate ((b :: bytes).map fun b => toString b.toNat)).toList =
      some (b :: bytes) := by
  have hcomma (b : UInt8) : ',' ∉ Nat.toDigits 10 b.toNat := not_mem_decimal (by decide)
  have hfirst : readByte? (Nat.toDigits 10 b.toNat) = some b :=
    readByte?_toDigits (List.forall_mem_nil _) b
  have hblank (b : UInt8) : readByte? (' ' :: Nat.toDigits 10 b.toNat) = some b :=
    readByte?_toDigits (List.forall_mem_singleton.mpr rfl) b
  have hrest : (bytes.map fun b => ' ' :: Nat.toDigits 10 b.toNat).mapM readByte? = some bytes := by
    induction bytes with
    | nil => rfl
    | cons b bytes ih =>
      rw [List.map_cons, List.mapM_cons, hblank, ih]
      rfl
  have htexts : ((b :: bytes).map fun b => toString b.toNat).map String.toList =
      (b :: bytes).map fun b => Nat.toDigits 10 b.toNat := by simp
  rw [readBytes?, String.toList_intercalate, htexts, List.map_cons]
  change (([',', ' '].intercalate _).splitOn ',').mapM readByte? = _
  rw [intercalate_comma, List.splitOn_intercalate, List.map_map, List.mapM_cons, hfirst]
  · change (Option.bind (List.mapM readByte? (bytes.map fun b => ' ' :: Nat.toDigits 10 b.toNat)) _) = _
    rw [hrest]
    rfl
  · simp [hcomma]
  · simp

/-! ## Statements -/

/-- The code of an integer literal, given the numeral that stands for it. -/
def integerCode (token : Token) (numeral : String) : String :=
  "\t;; --- " ++ token.kind.name ++ " (id: " ++ toString token.index ++ ") --- \n" ++
    "\tmov rax, " ++ numeral ++ "\n\tpush rax\n"

/-- The code of a definition of data, given what stands behind its label. -/
def dataCode (d : Definition) (storage : String) : String :=
  "section " ++ d.sectionName ++ "\n\t" ++ d.label.name ++ ":" ++ storage ++ "\n\n"

/-- **Constants stand in the code as they are written in the text.** -/
structure KeepsConstants (text : List Char) (c : Compilation) (code : DefId → List UInt8) : Prop where
  /-- The code of an integer literal pushes the integer that is written, in whatever base and type. -/
  integers : ∀ x token type, c.store.block? x = some (.expression token) →
    token.kind = .number type → type.isFloat = false → token.StandsIn text ∧
    ∃ value, token.SpellsInteger value ∧ ∃ id ∈ c.unit, c.Contains id x ∧
      ∃ numeral, readInteger? numeral.toList = some value ∧
        Utf8.encode (integerCode token numeral).toList <:+: code id
  /-- The code of a memory region reserves as many bytes as are written. -/
  memories : ∀ id d capacity, c.store.def? id = some d → d.body = .memory capacity →
    capacity.StandsIn text ∧ id ∈ c.unit ∧ ∃ value numeral, capacity.SpellsInteger value ∧
      readInteger? numeral.toList = some value ∧
      code id = Utf8.encode (dataCode d (" resb " ++ numeral)).toList
  /-- The code of a string constant lists the bytes that the literal denotes and a zero if it asks for
  one. Without any bytes the label stands alone. -/
  strings : ∀ id d literal, c.store.def? id = some d → d.body = .string literal →
    literal.StandsIn text ∧ id ∈ c.unit ∧ ∃ terminated bytes, literal.SpellsBytes terminated bytes ∧
      let stored := bytes ++ if terminated then [0] else []
      (stored = [] → code id = Utf8.encode (dataCode d "").toList) ∧
      (stored ≠ [] → ∃ operands, readBytes? operands.toList = some stored ∧
        code id = Utf8.encode (dataCode d (" db " ++ operands)).toList)

/-! ## Integers -/

/-- What a literal pushes is its integer. -/
theorem literalImmediate?_valueOf {token : Token} {type : NumberType} {value : Int}
    (hrange : value ∈ type.range) (hvalue : token.value = type.valueOf value) :
    literalImmediate? token type = some (.decimal value) := by
  cases type with
  | signed width => simp [literalImmediate?, Token.int?, hvalue, NumberType.valueOf]
  | unsigned width =>
    simp [literalImmediate?, Token.uint?, hvalue, NumberType.valueOf, Int.toNat_of_nonneg hrange.1]
  | float32 => exact hrange.elim
  | float64 => exact hrange.elim

theorem assemblyBytes_expression {token : Token} {type : NumberType} (hkind : token.kind = .number type)
    {value : Int} (himmediate : literalImmediate? token type = some (.decimal value)) (store : Store) :
    assemblyBytes ((Leaf.expression token).lines store) =
      Utf8.encode (integerCode token (toString value)).toList := by
  have hlines : expressionLines token =
      [code (.mov Register.rax.whole (.number value)), code (.push Register.rax.whole)] := by
    rw [expressionLines, hkind]
    simp only [literalLines, himmediate]
  rw [Leaf.lines, hlines]
  refine congrArg Utf8.encode ?_
  delta integerCode
  simp [assemblyText, String.join, Line.text, Remark.atMargin, Remark.text, Instruction.text,
    Operand.text, Immediate.text, Register.text]

/-! ## Data -/

theorem assemblyBytes_data (d : Definition) (storage : Storage) :
    assemblyBytes ([.inSection d.sectionName] ++ ([.storage d.label storage] ++ [.blank])) =
      Utf8.encode (dataCode d storage.text).toList := by
  refine congrArg Utf8.encode ?_
  delta dataCode
  simp [assemblyText, String.join, Line.text]

/-- The code of a definition of data, unless it is left out. -/
theorem UnitTree.segment_data {before : Store} {c : Compilation} {chunks : List Chunk}
    (h : UnitTree before c.store c.unit chunks) {id : DefId} (hid : id ∈ c.unit) {d : Definition}
    (hd : c.store.def? id = some d) {storage : Storage}
    (hlines : ∀ chunk, Chunk.ownLines c.store d chunk = [.storage d.label storage])
    {settings : Settings} (hstrip : settings.strip = false) :
    c.segment settings {} id = Utf8.encode (dataCode d storage.text).toList := by
  obtain ⟨d', chunk, hd', hsegment⟩ := h.segment_eq hid
  rw [hd] at hd'
  cases hd'
  have hkept : (settings.emitOptions.strip && !d.used) = false := by
    rw [Settings.emitOptions, hstrip, Bool.false_and]
  rw [hsegment settings "", Chunk.lines, hkept, hlines chunk]
  exact assemblyBytes_data d storage

/-- The size of a memory region is the integer that is written. -/
theorem capacityBytes?_valueOf {token : Token} (hsize : IsSize token) {type : NumberType} {value : Int}
    (hkind : token.kind = .number type) (hrange : value ∈ type.range)
    (hvalue : token.value = type.valueOf value) :
    ∃ count : Nat, capacityBytes? token = some count ∧ (count : Int) = value := by
  rcases hsize with ⟨width, hunsigned⟩ | ⟨width, n, hsigned, hn, hnonneg⟩
  · rw [hkind] at hunsigned
    cases hunsigned
    refine ⟨value.toNat, ?_, Int.toNat_of_nonneg hrange.1⟩
    simp [capacityBytes?, Token.uint?, hvalue, NumberType.valueOf]
  · rw [hkind] at hsigned
    cases hsigned
    rw [hvalue] at hn
    cases hn
    refine ⟨value.toNat, ?_, Int.toNat_of_nonneg hnonneg⟩
    simp [capacityBytes?, Token.uint?, Token.int?, hvalue, NumberType.valueOf, hnonneg]

theorem readBytes?_storage {bytes : List UInt8} (hne : bytes ≠ []) :
    ∃ operands, readBytes? operands.toList = some bytes ∧
      (Storage.values bytes).text = " db " ++ operands := by
  cases bytes with
  | nil => exact absurd rfl hne
  | cons b rest => exact ⟨_, readBytes?_intercalate b rest, rfl⟩

/-- Every definition of a store that was empty belongs to the unit. -/
theorem mem_unit_of_def? {options : ParseOptions} {maxNodes : Nat} {text : List Char} {after : Store}
    {unit : List DefId} (h : parseChars options (.empty maxNodes) text = ⟨.ok unit, after⟩)
    {id : DefId} {d : Definition} (hd : after.def? id = some d) : id ∈ unit := by
  obtain ⟨hsize, hunit⟩ := unit_of_parseChars h
  obtain ⟨chunks, htree⟩ := unitTree_of_parseChars h
  have hlt : id.index < unit.length := by
    have hindex := Store.index_lt_of_def? hd
    rw [hsize] at hindex
    simpa [Store.empty] using hindex
  have hid : id = ⟨(Store.empty maxNodes).defs.size + id.index, (Store.empty maxNodes).generation⟩ := by
    rw [← htree.generation, ← (Store.def?_eq_some.mp hd).1]
    simp [Store.empty]
  rw [hid]
  exact List.mem_of_getElem? (hunit id.index hlt)

/-! ## Sources -/

section Literals

variable {text : List Char} {maxNodes : Nat} {c : Compilation} {chunks : List Chunk}
  (h : UnitTree (.empty maxNodes) c.store c.unit chunks)
  (hmade : c.store.MadeFrom (Token.StandsIn text)) {settings : Settings}
  (hstrip : settings.strip = false)

include h hmade hstrip

/-- **An integer literal of a function.** -/
theorem integer_in_code {x : BlockId} {token : Token}
    (hblock : c.store.block? x = some (.expression token)) {type : NumberType}
    (hkind : token.kind = .number type) (htype : type.isFloat = false) :
    token.StandsIn text ∧ ∃ value, token.SpellsInteger value ∧ ∃ id ∈ c.unit, c.Contains id x ∧
      ∃ numeral, readInteger? numeral.toList = some value ∧
        Utf8.encode (integerCode token numeral).toList <:+: c.segment settings {} id := by
  obtain ⟨hstands, -⟩ := hmade.block? hblock
  obtain ⟨value, hspells, hrange, hvalue⟩ := hstands.integer hkind htype
  obtain ⟨id, hid, hcontains⟩ := h.exists_contains hblock
  refine ⟨hstands, value, hspells, id, hid, hcontains, toString value, readInteger?_toString value, ?_⟩
  have hne : c.segment settings {} id ≠ [] := by
    have hfull := (h.segment_strip settings "" hid).1
    rwa [← hstrip] at hfull
  rw [← assemblyBytes_expression hkind (literalImmediate?_valueOf hrange hvalue) c.store]
  exact h.leaf_isInfix hid hcontains rfl hblock settings "" hne

/-- **A memory region of the unit.** -/
theorem memory_in_code {id : DefId} (hid : id ∈ c.unit) {d : Definition}
    (hd : c.store.def? id = some d) {capacity : Token} (hbody : d.body = .memory capacity) :
    capacity.StandsIn text ∧ ∃ value numeral, capacity.SpellsInteger value ∧
      readInteger? numeral.toList = some value ∧
      c.segment settings {} id = Utf8.encode (dataCode d (" resb " ++ numeral)).toList := by
  obtain ⟨hstands, hsize⟩ : capacity.StandsIn text ∧ IsSize capacity := by
    have hcapacity := hmade.def? hd
    rwa [hbody] at hcapacity
  obtain ⟨type, hkind, htype⟩ : ∃ type, capacity.kind = .number type ∧ type.isFloat = false := by
    rcases hsize with ⟨width, hkind⟩ | ⟨width, n, hkind, -⟩
    · exact ⟨_, hkind, rfl⟩
    · exact ⟨_, hkind, rfl⟩
  obtain ⟨value, hspells, hrange, hvalue⟩ := hstands.integer hkind htype
  obtain ⟨count, hcount, hsame⟩ := capacityBytes?_valueOf hsize hkind hrange hvalue
  have hsegment : c.segment settings {} id =
      Utf8.encode (dataCode d (Storage.bytes count).text).toList := by
    refine h.segment_data hid hd (fun chunk => ?_) hstrip
    simp only [Chunk.ownLines, hbody, hcount, Option.getD_some]
  refine ⟨hstands, value, toString (count : Int), hspells, ?_, hsegment⟩
  rw [← hsame]
  exact readInteger?_toString count

/-- **A string constant of the unit.** -/
theorem string_in_code {id : DefId} (hid : id ∈ c.unit) {d : Definition}
    (hd : c.store.def? id = some d) {literal : Token} (hbody : d.body = .string literal) :
    literal.StandsIn text ∧ ∃ terminated bytes, literal.SpellsBytes terminated bytes ∧
      let stored := bytes ++ if terminated then [0] else []
      (stored = [] → c.segment settings {} id = Utf8.encode (dataCode d "").toList) ∧
      (stored ≠ [] → ∃ operands, readBytes? operands.toList = some stored ∧
        c.segment settings {} id = Utf8.encode (dataCode d (" db " ++ operands)).toList) := by
  obtain ⟨hstands, hstring⟩ : literal.StandsIn text ∧ literal.kind.isStringLiteral = true := by
    have hliteral := hmade.def? hd
    rwa [hbody] at hliteral
  obtain ⟨terminated, hkind⟩ := TokenKind.eq_string_of_isStringLiteral hstring
  obtain ⟨bytes, hspells, hvalue⟩ := hstands.quoted hkind
  refine ⟨hstands, terminated, bytes, hspells, ?_⟩
  intro stored
  have hstored : storedBytes literal = stored := by
    have hterminated : isTerminated literal = terminated := by
      rw [isTerminated, hkind]
      cases terminated <;> rfl
    rw [storedBytes, literalBytes, Token.bytes?, hvalue, hterminated]
    rfl
  have hsegment : c.segment settings {} id =
      Utf8.encode (dataCode d (Storage.values stored).text).toList := by
    refine h.segment_data hid hd (fun chunk => ?_) hstrip
    simp only [Chunk.ownLines, hbody, hstored]
  rw [hsegment]
  constructor
  · intro hnil
    rw [hnil]
    rfl
  · intro hne
    obtain ⟨operands, hread, htext⟩ := readBytes?_storage hne
    exact ⟨operands, hread, by rw [htext]⟩

end Literals

/-- **Constants survive compiling**: if nothing is left out, every integer literal, memory region and
string constant of a source stands in its code with the value that is written. -/
theorem compile_keepsConstants {settings : Settings} (hstrip : settings.strip = false)
    {source : List UInt8} {device : Device} {times : StageTimes} {c : Compilation}
    (h : (compile settings source device times).outcome = .ok c) :
    ∃ text, Utf8.decode source = (text, []) ∧ KeepsConstants text c (c.segment settings {}) ∧
      (compile settings source device times).bytes = assemblyBytes (preamble settings.entry) ++
        (c.unit.flatMap (c.segment settings {}) ++ assemblyBytes postamble) := by
  obtain ⟨text, chunks, hdecode, hparse, htree, hbytes⟩ := compile_eq_ok h
  have hmade := madeFrom_of_parseChars hparse (.empty _)
  refine ⟨text, hdecode, ⟨?_, ?_, ?_⟩, hbytes⟩
  · intro x token type hblock hkind htype
    exact integer_in_code htree hmade hstrip hblock hkind htype
  · intro id d capacity hd hbody
    have hid := mem_unit_of_def? hparse hd
    obtain ⟨hstands, hcode⟩ := memory_in_code htree hmade hstrip hid hd hbody
    exact ⟨hstands, hid, hcode⟩
  · intro id d literal hd hbody
    have hid := mem_unit_of_def? hparse hd
    obtain ⟨hstands, hcode⟩ := string_in_code htree hmade hstrip hid hd hbody
    exact ⟨hstands, hid, hcode⟩

/-- A size in another base, a string of a closing zero alone and one of no byte, and integers of both
signs. -/
theorem compile_keepsConstants_bases :
    let source := Utf8.encode
      "mem m 0x10u8 str z \"\"c str e \"\" func main \x7b -5 0b101 18446744073709551615u64 \x7d".toList
    ∃ c, (compile {} source {}).outcome = .ok c ∧ c.unit.length = 4 ∧ c.store.blocks.size = 4 ∧
      ∃ text, Utf8.decode source = (text, []) ∧ KeepsConstants text c (c.segment {} {}) ∧
        (compile {} source {}).bytes = assemblyBytes (preamble "main") ++
          (c.unit.flatMap (c.segment {} {}) ++ assemblyBytes postamble) := by
  intro source
  have hsource : (compile {} source {}).outcome.toOption.map
      (fun c => (c.unit.length, c.store.blocks.size)) = some (4, 4) := by decide +kernel
  cases hc : (compile {} source {}).outcome with
  | error e =>
    rw [hc] at hsource
    cases hsource
  | ok c =>
    rw [hc] at hsource
    obtain ⟨hunit, hblocks⟩ := Prod.mk.inj (Option.some.inj hsource)
    exact ⟨c, rfl, hunit, hblocks, compile_keepsConstants rfl hc⟩

end StackCompiler
