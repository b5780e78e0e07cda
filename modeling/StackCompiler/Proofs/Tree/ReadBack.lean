import Mathlib.Data.List.Nodup
import StackCompiler.Proofs.Grammar.Recognition
import StackCompiler.Proofs.Token.Texts
import StackCompiler.Proofs.Tree.Growth

/-!
# Reading a unit back

The body of a function is read back from the store as a row of kinds and texts. The words of fixed
kinds are not stored, but every construct tells where they stand. An alternative made for `elif` is
read without the brackets that are not in the text: `elif`, and then the branch inside without its
`if`. Which alternatives these are can be told by their places: the scope of such an alternative
stands where the alternative does.

* `readBack`: a block and everything below it as kinds and texts.
* `KeepsTokens`: a definition of the store against its phrase.
* `Told`: what steps of parsing add to the store stays there, and is read back.
* **`Phrase.told`**: phrases.
* **`parseChars_keepsSource`**: units.
-/

namespace StackCompiler

/-! ## Kinds and texts -/

/-- A kind and a text. -/
abbrev Shape : Type := TokenKind × String

def Token.shape (token : Token) : Shape := (token.kind, token.text)

/-- A word of a fixed kind. -/
def TokenKind.shape (kind : TokenKind) : Shape := (kind, kind.spelling?.getD "")

theorem Token.shape_eq {token : Token} (hspelled : token.Spelled) {kind : TokenKind}
    (hkind : token.kind = kind) (hfixed : kind.isFixed = true) : token.shape = kind.shape := by
  subst hkind
  rw [shape, TokenKind.shape, hspelled hfixed]
  rfl

/-- **What a block reads**, given what the blocks below it read. An alternative made for `elif` drops
the opening bracket of its scope and the `if` behind it, and the closing bracket. -/
def Block.words (read : BlockId → List Shape) (chained : Bool) : Block → List Shape
  | .expression token | .reference token _ => [token.shape]
  | .call _ callee => read callee ++ [(TokenKind.keyword .call).shape]
  | .cast _ types => (TokenKind.keyword .asType).shape :: types.map Token.shape
  | .scope bracket _ children =>
    (TokenKind.opening bracket).shape ::
      (children.flatMap read ++ [(TokenKind.closing bracket).shape])
  | .branch _ condition body _ _ =>
    (TokenKind.keyword .condition).shape :: (read condition ++ read body)
  | .alternative _ body _ =>
    if chained then (TokenKind.keyword .elseIf).shape :: ((read body).drop 2).dropLast
    else (TokenKind.keyword .otherwise).shape :: read body
  | .loop _ condition body _ => (TokenKind.keyword .loop).shape :: (read condition ++ read body)
  | .assembly token => [(TokenKind.keyword .assembly).shape, token.shape]

/-- A block and at most `levels` levels below it. `chained` tells the alternatives made for `elif`. -/
def readBlock (store : Store) (chained : BlockId → Bool) : (levels : Nat) → BlockId → List Shape
  | 0, _ => []
  | levels + 1, id =>
    match store.block? id with
    | none => []
    | some block => block.words (readBlock store chained levels) (chained id)

/-- **A block and everything below it.** -/
def readBack (store : Store) (chained : BlockId → Bool) (id : BlockId) : List Shape :=
  readBlock store chained store.blocks.size id

/-- **Does the alternative stand where its scope stands?** -/
def Store.isChained (store : Store) (id : BlockId) : Bool :=
  match store.block? id with
  | some (.alternative location body _) =>
    match store.block? body with
    | some (.scope _ location' _) => location' == location
    | _ => false
  | _ => false

/-! ## Definitions and their phrases -/

/-- The types of a clause. -/
def ClausePhrase.list {word : Keyword} (clause : Option (ClausePhrase word)) : List Token :=
  clause.elim [] fun c => c.types.1

/-- **The types that a function takes**, from left to right. -/
def FunctionPhrase.requires (f : FunctionPhrase) : List Token :=
  (f.parens.elim [] fun p => ClausePhrase.list p.2.1.requires) ++
    ClausePhrase.list f.signature.requires

/-- **The types that a function leaves**, from left to right. -/
def FunctionPhrase.returns (f : FunctionPhrase) : List Token :=
  (f.parens.elim [] fun p => ClausePhrase.list p.2.1.returns) ++
    ClausePhrase.list f.signature.returns

/-- The tokens of the body of a function, from bracket to bracket. -/
def FunctionPhrase.bodyTokens (f : FunctionPhrase) : List Token :=
  f.opener.1 :: (f.inside.tokens ++ [f.closer.1])

/-- What is defined keeps the tokens of its phrase. -/
def KeepsSubject (read : BlockId → List Shape) : DefinitionBody → SubjectPhrase → Prop
  | .function g, .function f => g.requires = f.requires ∧ g.returns = f.returns ∧
    read g.body = f.bodyTokens.map Token.shape
  | .memory capacity, .memory m => capacity = m.capacity.1
  | .string literal, .string s => literal = s.literal.1
  | _, _ => False

/-- **A definition of the store keeps the tokens of its phrase.** -/
def KeepsTokens (store : Store) (read : BlockId → List Shape) (id : DefId) (p : DefinitionPhrase) :
    Prop :=
  ∃ d, store.def? id = some d ∧ d.ident = p.subject.name ∧
    (∀ place, p.place = some place → d.place = place.2.1) ∧ KeepsSubject read d.body p.subject

theorem SignaturePhrase.addTo_eq (s : SignaturePhrase) (signature : Signature) :
    s.addTo signature = ⟨signature.requires ++ ClausePhrase.list s.requires,
      signature.returns ++ ClausePhrase.list s.returns⟩ := by
  obtain ⟨requires, returns⟩ := s
  cases requires <;> cases returns <;> simp [addTo, Signature.add, ClausePhrase.list]

theorem FunctionPhrase.types_eq (f : FunctionPhrase) : f.types = ⟨f.requires, f.returns⟩ := by
  rw [types, SignaturePhrase.addTo_eq, requires, returns]
  cases f.parens with
  | none => rfl
  | some p => simp [SignaturePhrase.addTo_eq]

/-! ## Nodes that stay -/

/-- A block without what joins a branch to its alternative. -/
def Block.unjoined : Block → Block
  | .branch location condition body _ index => .branch location condition body none index
  | other => other

theorem Block.words_eq {block block' : Block} (h : block'.unjoined = block.unjoined)
    (read : BlockId → List Shape) (chained : Bool) :
    block'.words read chained = block.words read chained := by
  have hwords (block : Block) : block.unjoined.words read chained = block.words read chained := by
    cases block <;> rfl
  rw [← hwords, h, hwords]

theorem Block.eq_of_unjoined {block block' : Block} (h : block'.unjoined = block.unjoined)
    (hne : ∀ l c b n i, block ≠ .branch l c b n i) : block' = block := by
  have hblock : block.unjoined = block := by
    cases block with
    | branch l c b n i => exact absurd rfl (hne l c b n i)
    | _ => rfl
  rw [hblock] at h
  cases block' with
  | branch l c b n i => exact absurd h.symm (hne l c b none i)
  | _ => exact h

/-- **The nodes of a store stay**, at least the blocks from a number on. Branches may be joined to
their alternatives, and definitions may become used. -/
structure Store.Persists (low : Nat) (store later : Store) : Prop where
  generation : later.generation = store.generation
  block : ∀ id block, low ≤ id.index → store.block? id = some block →
    ∃ block', later.block? id = some block' ∧ block'.unjoined = block.unjoined
  definition : ∀ id d, store.def? id = some d → ∃ d', later.def? id = some d' ∧ d'.marked = d.marked

namespace Store.Persists

variable {low low' : Nat} {store middle later : Store}

theorem refl (store : Store) : store.Persists low store :=
  ⟨rfl, fun _ block _ h => ⟨block, h, rfl⟩, fun _ d h => ⟨d, h, rfl⟩⟩

theorem trans (h : store.Persists low middle) (h' : middle.Persists low later) :
    store.Persists low later := by
  refine ⟨h'.generation.trans h.generation, fun id block hlow hblock => ?_, fun id d hd => ?_⟩
  · obtain ⟨block₁, hblock₁, heq₁⟩ := h.block id block hlow hblock
    obtain ⟨block₂, hblock₂, heq₂⟩ := h'.block id block₁ hlow hblock₁
    exact ⟨block₂, hblock₂, heq₂.trans heq₁⟩
  · obtain ⟨d₁, hd₁, heq₁⟩ := h.definition id d hd
    obtain ⟨d₂, hd₂, heq₂⟩ := h'.definition id d₁ hd₁
    exact ⟨d₂, hd₂, heq₂.trans heq₁⟩

theorem mono (h : store.Persists low later) (hle : low ≤ low') : store.Persists low' later :=
  ⟨h.generation, fun id block hlow => h.block id block (Nat.le_trans hle hlow), h.definition⟩

theorem withBlock (store : Store) (block : Block) : store.Persists 0 (store.withBlock block) := by
  refine ⟨rfl, fun id block' _ h => ⟨block', ?_, rfl⟩, fun id d h => ⟨d, h, rfl⟩⟩
  obtain ⟨hgeneration, hget⟩ := Store.block?_eq_some.mp h
  have hlt : id.index < store.blocks.size := (Array.getElem?_eq_some_iff.mp hget).1
  refine Store.block?_eq_some.mpr ⟨hgeneration, ?_⟩
  simp only [Store.withBlock, Array.getElem?_push, Nat.ne_of_lt hlt, if_false, hget]

theorem withDef (store : Store) (d : Definition) : store.Persists 0 (store.withDef d) := by
  refine ⟨rfl, fun id block _ h => ⟨block, h, rfl⟩, fun id d' h => ⟨d', ?_, rfl⟩⟩
  rw [Store.def?_withDef_of_lt _ _ (Store.index_lt_of_def? h), h]

theorem markUsed (store : Store) (target : DefId) :
    store.Persists 0 (store.modifyDef target ({ · with used := true })) := by
  refine ⟨?_, fun id block _ h => ⟨block, ?_, rfl⟩, fun id d h => ?_⟩
  · exact Store.generation_modifyDef ..
  · rw [Store.block?_modifyDef, h]
  · rw [Store.def?_modifyDef, h]
    split_ifs
    · exact ⟨_, rfl, rfl⟩
    · exact ⟨d, rfl, rfl⟩

theorem joined (store : Store) (branch alternative : BlockId) :
    store.Persists 0 (store.modifyBlock branch (joined alternative)) := by
  refine ⟨store.generation_modifyBlock .., fun id block _ h => ?_, fun id d h => ⟨d, ?_, rfl⟩⟩
  · rw [Store.block?_modifyBlock, h]
    split_ifs
    · exact ⟨_, rfl, by cases block <;> rfl⟩
    · exact ⟨block, rfl, rfl⟩
  · rw [Store.def?_modifyBlock, h]

/-- The blocks behind the one that is changed. -/
theorem modifyBlock (store : Store) {target : BlockId} (h : target.index < low)
    (f : Block → Block) : store.Persists low (store.modifyBlock target f) := by
  refine ⟨store.generation_modifyBlock .., fun id block hlow hblock => ⟨block, ?_, rfl⟩,
    fun id d hd => ⟨d, ?_, rfl⟩⟩
  · have hne : target ≠ id := by
      rintro rfl
      omega
    rw [Store.block?_modifyBlock, if_neg hne, hblock]
  · rw [Store.def?_modifyBlock, hd]

/-- A block that is changed was not there before. -/
theorem modifyNew (h : store.Persists 0 later) {target : BlockId}
    (hnew : store.block? target = none) (f : Block → Block) :
    store.Persists 0 (later.modifyBlock target f) := by
  refine ⟨(later.generation_modifyBlock ..).trans h.generation, fun id block hlow hblock => ?_,
    fun id d hd => ?_⟩
  · have hne : target ≠ id := by
      rintro rfl
      rw [hnew] at hblock
      cases hblock
    obtain ⟨block', hblock', heq⟩ := h.block id block hlow hblock
    exact ⟨block', by rw [Store.block?_modifyBlock, if_neg hne, hblock'], heq⟩
  · rw [Store.def?_modifyBlock]
    exact h.definition id d hd

end Store.Persists

/-! ## Steps that are read back -/

/-- **Where an alternative stands**: the scope of one made for `elif` stands at the same place, that
of another one where a token behind its keyword does. -/
def Placed (tokens : List Token) (store : Store) (mark : BlockId × Bool) : Prop :=
  ∃ location body index bracket location' children,
    store.block? mark.1 = some (.alternative location body index) ∧
    store.block? body = some (.scope bracket location' children) ∧
    if mark.2 then location' = location else
      ∃ keyword opener, [keyword, opener] <:+: tokens ∧ keyword.location = location ∧
        opener.location = location'

/-- **Steps add nodes that stay**, and what they have added has a property wherever it stays. The
marks tell which of the alternatives were made for `elif`. -/
structure Told (tokens : List Token) (w w' : Workspace) (marks : List (BlockId × Bool))
    (P : Store → (BlockId → Bool) → Nat → Prop) : Prop where
  size_le : w.store.blocks.size ≤ w'.store.blocks.size
  persists : w.store.Persists 0 w'.store
  range : ∀ mark ∈ marks, w.store.blocks.size ≤ mark.1.index ∧ mark.1.index < w'.store.blocks.size
  nodup : (marks.map Prod.fst).Nodup
  holds : ∀ final chained levels, w'.store.Persists w.store.blocks.size final →
    (∀ mark ∈ marks, chained mark.1 = mark.2) →
    w'.store.blocks.size ≤ levels + w.store.blocks.size → P final chained levels
  placed : ∀ final, w'.store.Persists w.store.blocks.size final →
    ∀ mark ∈ marks, Placed tokens final mark

namespace Told

variable {tokens : List Token} {w w₁ w' : Workspace} {marks marks' : List (BlockId × Bool)}
  {P Q : Store → (BlockId → Bool) → Nat → Prop}

/-- A step that adds no block. -/
theorem skip (hpersists : w.store.Persists 0 w'.store)
    (hsize : w'.store.blocks.size = w.store.blocks.size)
    (hP : ∀ final chained levels, w'.store.Persists w.store.blocks.size final →
      P final chained levels) : Told tokens w w' [] P :=
  ⟨Nat.le_of_eq hsize.symm, hpersists, by simp, List.nodup_nil,
    fun final chained levels hfinal _ _ => hP final chained levels hfinal, by simp⟩

theorem mono (h : Told tokens w w' marks P) (hPQ : ∀ s c l, P s c l → Q s c l) :
    Told tokens w w' marks Q :=
  ⟨h.size_le, h.persists, h.range, h.nodup,
    fun final chained levels hfinal hmarks hlevels =>
      hPQ _ _ _ (h.holds final chained levels hfinal hmarks hlevels), h.placed⟩

/-- **Steps in a row.** -/
theorem append (h : Told tokens w w₁ marks P) (h' : Told tokens w₁ w' marks' Q) :
    Told tokens w w' (marks ++ marks') fun s c l => P s c l ∧ Q s c l := by
  have hsize := h.size_le
  have hsize' := h'.size_le
  have hfirst {final : Store} (hfinal : w'.store.Persists w.store.blocks.size final) :
      w₁.store.Persists w.store.blocks.size final :=
    (h'.persists.mono (Nat.zero_le _)).trans hfinal
  refine ⟨Nat.le_trans hsize hsize', h.persists.trans h'.persists, ?_, ?_, ?_, ?_⟩
  · intro mark hmark
    rcases List.mem_append.mp hmark with hmark | hmark
    · have := h.range mark hmark
      omega
    · have := h'.range mark hmark
      omega
  · rw [List.map_append, List.nodup_append]
    refine ⟨h.nodup, h'.nodup, ?_⟩
    intro id hid id' hid'
    obtain ⟨mark, hmark, rfl⟩ := List.mem_map.mp hid
    obtain ⟨mark', hmark', rfl⟩ := List.mem_map.mp hid'
    have hlt := (h.range mark hmark).2
    have hle := (h'.range mark' hmark').1
    intro heq
    rw [heq] at hlt
    omega
  · intro final chained levels hfinal hmarks hlevels
    obtain ⟨hmarks, hmarks'⟩ := List.forall_mem_append.mp hmarks
    exact ⟨h.holds final chained levels (hfirst hfinal) hmarks (by omega),
      h'.holds final chained levels (hfinal.mono hsize) hmarks' (by omega)⟩
  · intro final hfinal
    exact List.forall_mem_append.mpr
      ⟨h.placed final (hfirst hfinal), h'.placed final (hfinal.mono hsize)⟩

/-- The blocks below one are read with one level less. -/
def Under (P : Store → (BlockId → Bool) → Nat → Prop) (block : Block) (id : BlockId) (s : Store)
    (c : BlockId → Bool) (l : Nat) : Prop :=
  ∃ l', P s c l' ∧ readBlock s c l id = block.words (readBlock s c l') (c id)

theorem readBlock_eq {store : Store} {block block' : Block} {id : BlockId}
    (hblock : store.block? id = some block') (h : block'.unjoined = block.unjoined)
    (chained : BlockId → Bool) (levels : Nat) :
    readBlock store chained (levels + 1) id =
      block.words (readBlock store chained levels) (chained id) := by
  rw [readBlock, hblock]
  exact Block.words_eq h _ _

/-- **A block is added behind those below it.** -/
theorem node (h : Told tokens w w₁ marks P) {block : Block} {id : BlockId}
    (hadd : addBlock block w₁ = .ok id w') : Told tokens w w' marks (Under P block id) := by
  obtain ⟨-, rfl, rfl⟩ := addBlock_eq_ok.mp hadd
  have hsize := h.size_le
  have hnew : (w₁.store.withBlock block).blocks.size = w₁.store.blocks.size + 1 :=
    Array.size_push ..
  have hfirst {final : Store}
      (hfinal : (w₁.store.withBlock block).Persists w.store.blocks.size final) :
      w₁.store.Persists w.store.blocks.size final :=
    ((Store.Persists.withBlock w₁.store block).mono (Nat.zero_le _)).trans hfinal
  refine ⟨?_, h.persists.trans (.withBlock ..), ?_, h.nodup, ?_, ?_⟩
  · rw [hnew]
    omega
  · intro mark hmark
    have := h.range mark hmark
    rw [hnew]
    omega
  · intro final chained levels hfinal hmarks hlevels
    rw [hnew] at hlevels
    obtain ⟨levels, rfl⟩ := Nat.exists_eq_add_of_lt (show 0 < levels by omega)
    rw [Nat.zero_add] at hlevels ⊢
    obtain ⟨block', hblock', heq⟩ :=
      hfinal.block _ block hsize (Store.block?_withBlock w₁.store block)
    exact ⟨levels, h.holds final chained levels (hfirst hfinal) hmarks (by omega),
      readBlock_eq hblock' heq chained levels⟩
  · exact fun final hfinal => h.placed final (hfirst hfinal)

/-- **An alternative is added behind its scope.** -/
theorem alternative (h : Told tokens w w₁ marks P) {location : Location} {body id : BlockId}
    {index : Nat} (hadd : addBlock (.alternative location body index) w₁ = .ok id w') (flag : Bool)
    {bracket : Bracket} {location' : Location} {children : List BlockId}
    (hbody : w₁.store.block? body = some (.scope bracket location' children))
    (hlow : w.store.blocks.size ≤ body.index)
    (hflag : if flag then location' = location else ∃ keyword opener,
      [keyword, opener] <:+: tokens ∧ keyword.location = location ∧ opener.location = location') :
    Told tokens w w' (marks ++ [(id, flag)])
      fun s c l => c id = flag ∧ Under P (.alternative location body index) id s c l := by
  have hnode := h.node hadd
  obtain ⟨-, rfl, rfl⟩ := addBlock_eq_ok.mp hadd
  have hsize := h.size_le
  have hnew : (w₁.store.withBlock (.alternative location body index)).blocks.size =
      w₁.store.blocks.size + 1 := Array.size_push ..
  refine ⟨hnode.size_le, hnode.persists, ?_, ?_, ?_, ?_⟩
  · refine List.forall_mem_append.mpr ⟨hnode.range, List.forall_mem_singleton.mpr ⟨hsize, ?_⟩⟩
    rw [hnew]
    exact Nat.lt_succ_self _
  · rw [List.map_append, List.nodup_append]
    refine ⟨h.nodup, List.nodup_singleton _, ?_⟩
    intro id hid id' hid' heq
    obtain ⟨mark, hmark, rfl⟩ := List.mem_map.mp hid
    have hlt := (h.range mark hmark).2
    rw [heq, List.mem_singleton.mp hid'] at hlt
    exact Nat.lt_irrefl _ hlt
  · intro final chained levels hfinal hmarks hlevels
    obtain ⟨hmarks, hmark⟩ := List.forall_mem_append.mp hmarks
    exact ⟨hmark _ (.head _),
      hnode.holds final chained levels hfinal hmarks hlevels⟩
  · intro final hfinal
    refine List.forall_mem_append.mpr ⟨hnode.placed final hfinal, List.forall_mem_singleton.mpr ?_⟩
    obtain ⟨block₁, hblock₁, heq₁⟩ := hfinal.block _ _ hsize (Store.block?_withBlock w₁.store _)
    obtain ⟨block₂, hblock₂, heq₂⟩ :=
      (Store.Persists.withBlock w₁.store _).block _ _ (Nat.zero_le _) hbody
    obtain ⟨block₃, hblock₃, heq₃⟩ := hfinal.block _ _ hlow hblock₂
    rw [Block.eq_of_unjoined heq₁ (by simp)] at hblock₁
    rw [Block.eq_of_unjoined (heq₃.trans heq₂) (by simp)] at hblock₃
    exact ⟨location, body, index, bracket, location', children, hblock₁, hblock₃, hflag⟩

end Told

/-! ## Phrases -/

/-- What a phrase leaves behind is read as some words. -/
def Nonterminal.ReadsAs (words : List Shape) :
    (n : Nonterminal) → n.Handle → Store → (BlockId → Bool) → Nat → Prop
  | .scope, id => fun s c l => readBlock s c l id = words
  | .block, ids | .blocks, ids | .chain, ids => fun s c l => ids.flatMap (readBlock s c l) = words

/-- **The step adds what is read as some words.** -/
def Recounts (tokens : List Token) (n : Nonterminal) (m : ParseM n.Handle) (words : List Shape) :
    Prop :=
  ∀ w handle w', m w = .ok handle w' → ∃ marks, Told tokens w w' marks (n.ReadsAs words handle)

section Phrases

variable {options : ParseOptions} {tokens : List Token} {w w' : Workspace}

theorem Told.refl (w : Workspace) : Told tokens w w [] fun _ _ _ => True :=
  .skip (.refl _) rfl fun _ _ _ _ => trivial

theorem Told.takeIndex {index : Nat} (h : takeIndex w = .ok index w') :
    Told tokens w w' [] fun _ _ _ => True := by
  rw [takeIndex_eq] at h
  cases h
  exact .skip (.refl _) rfl fun _ _ _ _ => trivial

/-- A block with nothing below it. -/
theorem Told.leaf {block : Block} {id : BlockId} (h : addBlock block w = .ok id w')
    {words : List Shape} (hwords : ∀ read chained, block.words read chained = words) :
    Told tokens w w' [] fun s c l => readBlock s c l id = words := by
  refine ((Told.refl w).node h).mono fun s c l hunder => ?_
  obtain ⟨l', -, hread⟩ := hunder
  rw [hread, hwords]

theorem Told.addReference {name : Token} {id : BlockId} (h : addReference name w = .ok id w') :
    Told tokens w w' [] fun s c l => readBlock s c l id = [name.shape] := by
  obtain ⟨target, -, h⟩ := addReference_eq_ok.mp h
  have hsize : (w.markUsed target).store.blocks.size = w.store.blocks.size :=
    congrArg Array.size (Store.blocks_modifyDef ..)
  have hmark : Told tokens w (w.markUsed target) [] fun _ _ _ => True :=
    .skip (.markUsed ..) hsize fun _ _ _ _ => trivial
  exact (hmark.append (.leaf h fun _ _ => rfl)).mono fun s c l h => h.2

/-- Where no block was added, nothing is read. -/
theorem Told.size_lt {marks : List (BlockId × Bool)} {id : BlockId} {words : List Shape}
    (h : Told tokens w w' marks fun s c l => readBlock s c l id = words) (hne : words ≠ []) :
    w.store.blocks.size < w'.store.blocks.size := by
  by_contra hle
  obtain rfl : marks = [] := by
    refine List.eq_nil_iff_forall_not_mem.mpr fun mark hmark => ?_
    have := h.range mark hmark
    omega
  exact hne (h.holds w'.store (fun _ => false) 0 (.refl _) (by simp) (by omega)).symm

/-- A row of one block. -/
theorem recounts_single {m : ParseM BlockId} {words : List Shape}
    (hm : ∀ w id w', m w = .ok id w' → ∃ marks,
      Told tokens w w' marks fun s c l => readBlock s c l id = words) :
    Recounts tokens .block (do return [← m]) words := by
  intro w ids w' h
  obtain ⟨id, w₁, h₁, h⟩ := bind_eq_ok.mp h
  obtain ⟨rfl, rfl⟩ := pure_eq_ok.mp h
  obtain ⟨marks, htold⟩ := hm w id w₁ h₁
  exact ⟨marks, htold.mono fun s c l hread => by simpa [Nonterminal.ReadsAs] using hread⟩

/-- **A branch and its alternative.** -/
theorem told_addBranch {keyword : Token} {index : Nat} {condition body : ParseM BlockId}
    {chain : ParseM (List BlockId)} {c b a : List Shape}
    (hcondition : Recounts tokens .scope condition c) (hbody : Recounts tokens .scope body b)
    (hchain : Recounts tokens .chain chain a) {ids : List BlockId}
    (h : addBranch keyword index condition body chain w = .ok ids w') :
    ∃ marks, Told tokens w w' marks fun s ch l => ids.flatMap (readBlock s ch l) =
      (TokenKind.keyword .condition).shape :: (c ++ (b ++ a)) := by
  simp only [addBranch, bind_eq_ok] at h
  obtain ⟨cid, w₁, h₁, bid, w₂, h₂, jid, w₃, h₃, alternatives, w₄, h₄, _, w₅, h₅, h⟩ := h
  obtain ⟨rfl, rfl⟩ := pure_eq_ok.mp h
  obtain ⟨_, hc⟩ := hcondition _ _ _ h₁
  obtain ⟨_, hb⟩ := hbody _ _ _ h₂
  obtain ⟨_, ha⟩ := hchain _ _ _ h₄
  have hjoin : Told tokens w₄ w₅ [] fun _ _ _ => True := by
    cases alternatives with
    | nil =>
      obtain ⟨-, rfl⟩ := pure_eq_ok.mp h₅
      exact .refl w₄
    | cons alternative rest =>
      rw [joinChain, joinAlternative_eq] at h₅
      cases h₅
      refine .skip (.joined ..) ?_ fun _ _ _ _ => trivial
      exact w₄.store.size_blocks_modifyBlock ..
  refine ⟨_, ((((hc.append hb).node h₃).append ha).append hjoin).mono fun s ch l h => ?_⟩
  obtain ⟨⟨⟨l', ⟨hreadc, hreadb⟩, hread⟩, hreada⟩, -⟩ := h
  rw [List.flatMap_cons, hread, hreada]
  simp only [Nonterminal.ReadsAs] at hreadc hreadb
  simp [Block.words, hreadc, hreadb]

/-- The scope that a phrase leaves behind stands where its first token does. -/
theorem scope_of_build (p : Phrase .scope) {depth : Nat} {id : BlockId}
    (h : p.build options depth w = .ok id w') :
    ∃ bracket opener rest children, p.tokens = opener :: rest ∧
      w'.store.block? id = some (.scope bracket opener.location children) ∧
      id.index + 1 = w'.store.blocks.size := by
  cases p with
  | enclosed bracket opener inside closer =>
    simp only [Phrase.build, bind_eq_ok] at h
    obtain ⟨_, w₁, -, ids, w₂, -, h⟩ := h
    obtain ⟨-, rfl, rfl⟩ := addBlock_eq_ok.mp h
    exact ⟨bracket, opener.1, _, ids, rfl, Store.block?_withBlock .., (Array.size_push ..).symm⟩

theorem infix_parts {token : Token} {first second third : List Token}
    (h : token :: (first ++ (second ++ third)) <:+: tokens) :
    first <:+: tokens ∧ second <:+: tokens ∧ third <:+: tokens :=
  ⟨.trans ⟨[token], second ++ third, by simp⟩ h, .trans ⟨token :: first, third, by simp⟩ h,
    .trans ⟨token :: (first ++ second), [], by simp⟩ h⟩

/-- **What a phrase adds to the store is read back as its tokens.** -/
theorem Phrase.told (hspelled : ∀ t ∈ tokens, t.Spelled) {n : Nonterminal} (p : Phrase n)
    (hwithin : p.tokens <:+: tokens) (depth : Nat) :
    Recounts tokens n (p.build options depth) (p.tokens.map Token.shape) := by
  have hshape {t : Token} {kind : TokenKind} {part : List Token} (hpart : part <:+: tokens)
      (ht : t ∈ part) (hkind : t.kind = kind) (hfixed : kind.isFixed = true) :
      t.shape = kind.shape := Token.shape_eq (hspelled t (hpart.mem ht)) hkind hfixed
  induction p generalizing depth with
  | expression token => exact recounts_single fun w id w' h => ⟨[], .leaf h fun _ _ => rfl⟩
  | reference name => exact recounts_single fun w id w' h => ⟨[], .addReference h⟩
  | call name keyword =>
    have hkeyword := hshape hwithin (.tail _ (.head _)) keyword.2 rfl
    refine recounts_single fun w id w' h => ?_
    obtain ⟨callee, w₁, h₁, h⟩ := bind_eq_ok.mp h
    rw [get_bind] at h
    split_ifs at h
    · refine ⟨_, ((Told.addReference h₁).node h).mono fun s c l hunder => ?_⟩
      obtain ⟨l', hcallee, hread⟩ := hunder
      rw [hread, Block.words, hcallee, Phrase.tokens, List.map_cons, List.map_singleton, hkeyword]
      rfl
    · exact absurd h failAt_ne_ok
  | cast keyword types =>
    have hkeyword := hshape hwithin (.head _) keyword.2 rfl
    refine recounts_single fun w id w' h => ⟨[], .leaf h fun _ _ => ?_⟩
    rw [Block.words, Phrase.tokens, List.map_cons, hkeyword]
  | nested scope ih =>
    exact recounts_single fun w id w' h => ih hwithin depth w id w' h
  | branch keyword condition body chain ihc ihb ihch =>
    have hkeyword := hshape hwithin (.head _) keyword.2 rfl
    obtain ⟨hc, hb, hch⟩ := infix_parts hwithin
    intro w ids w' h
    obtain ⟨index, w₁, h₁, h⟩ := bind_eq_ok.mp h
    obtain ⟨marks, hbranch⟩ := told_addBranch (ihc hc depth) (ihb hb depth) (ihch hch depth) h
    refine ⟨_, ((Told.takeIndex h₁).append hbranch).mono fun s c l hread => ?_⟩
    simp only [Nonterminal.ReadsAs, hread.2, Phrase.tokens, List.map_cons, List.map_append, hkeyword]
  | loop keyword condition body ihc ihb =>
    have hkeyword := hshape hwithin (.head _) keyword.2 rfl
    rw [Phrase.tokens, ← List.append_nil (condition.tokens ++ body.tokens), List.append_assoc]
      at hwithin
    obtain ⟨hc, hb, -⟩ := infix_parts hwithin
    intro w ids w' h
    simp only [Phrase.build, bind_eq_ok] at h
    obtain ⟨index, w₁, h₁, cid, w₂, h₂, bid, w₃, h₃, id, w₄, h₄, h⟩ := h
    obtain ⟨rfl, rfl⟩ := pure_eq_ok.mp h
    obtain ⟨_, hcondition⟩ := ihc hc depth _ _ _ h₂
    obtain ⟨_, hbody⟩ := ihb hb depth _ _ _ h₃
    refine ⟨_, (((Told.takeIndex h₁).append (hcondition.append hbody)).node h₄).mono
      fun s c l hunder => ?_⟩
    obtain ⟨l', ⟨-, hreadc, hreadb⟩, hread⟩ := hunder
    simp only [Nonterminal.ReadsAs] at hreadc hreadb
    simp [Nonterminal.ReadsAs, hread, Block.words, hreadc, hreadb, Phrase.tokens, hkeyword]
  | assembly keyword literal =>
    have hkeyword := hshape hwithin (.head _) keyword.2 rfl
    refine recounts_single fun w id w' h => ⟨[], .leaf h fun _ _ => ?_⟩
    rw [Block.words, Phrase.tokens, List.map_cons, List.map_singleton, hkeyword]
  | nil =>
    intro w ids w' h
    obtain ⟨rfl, rfl⟩ := pure_eq_ok.mp h
    exact ⟨[], (Told.refl w).mono fun _ _ _ _ => rfl⟩
  | cons first rest ihf ihr =>
    have hfirst : first.tokens <:+: tokens := .trans ⟨[], rest.tokens, rfl⟩ hwithin
    have hrest : rest.tokens <:+: tokens := .trans ⟨first.tokens, [], List.append_nil _⟩ hwithin
    intro w ids w' h
    simp only [Phrase.build, bind_eq_ok] at h
    obtain ⟨ids₁, w₁, h₁, ids₂, w₂, h₂, h⟩ := h
    obtain ⟨rfl, rfl⟩ := pure_eq_ok.mp h
    obtain ⟨_, htold₁⟩ := ihf hfirst depth _ _ _ h₁
    obtain ⟨_, htold₂⟩ := ihr hrest depth _ _ _ h₂
    refine ⟨_, (htold₁.append htold₂).mono fun s c l hread => ?_⟩
    simp only [Nonterminal.ReadsAs] at hread
    simp only [Nonterminal.ReadsAs, List.flatMap_append, hread.1, hread.2, Phrase.tokens,
      List.map_append]
  | enclosed bracket opener inside closer ih =>
    have hopener := hshape hwithin (.head _) opener.2 rfl
    have hcloser := hshape hwithin (by simp [Phrase.tokens]) closer.2 rfl
    have hinside : inside.tokens <:+: tokens :=
      .trans ⟨[opener.1], [closer.1], by simp [Phrase.tokens]⟩ hwithin
    intro w id w' h
    simp only [Phrase.build, bind_eq_ok] at h
    obtain ⟨_, w₁, h₁, ids, w₂, h₂, h₃⟩ := h
    obtain ⟨-, rfl⟩ := checkDepth_eq_ok.mp h₁
    obtain ⟨_, htold⟩ := ih hinside (depth + 1) _ _ _ h₂
    refine ⟨_, (htold.node h₃).mono fun s c l hunder => ?_⟩
    obtain ⟨l', hread', hread⟩ := hunder
    simp only [Nonterminal.ReadsAs] at hread'
    simp [Nonterminal.ReadsAs, hread, Block.words, hread', Phrase.tokens, hopener, hcloser]
  | stop =>
    intro w ids w' h
    obtain ⟨rfl, rfl⟩ := pure_eq_ok.mp h
    exact ⟨[], (Told.refl w).mono fun _ _ _ _ => rfl⟩
  | otherwise keyword body ih =>
    have hkeyword := hshape hwithin (.head _) keyword.2 rfl
    have hbody : body.tokens <:+: tokens := .trans ⟨[keyword.1], [], by simp [Phrase.tokens]⟩ hwithin
    intro w ids w' h
    simp only [Phrase.build, bind_eq_ok] at h
    obtain ⟨index, w₁, h₁, bid, w₂, h₂, id, w₃, h₃, h⟩ := h
    obtain ⟨rfl, rfl⟩ := pure_eq_ok.mp h
    obtain ⟨_, htold⟩ := ih hbody depth _ _ _ h₂
    obtain ⟨bracket, opener, rest, children, htokens, hscope, hindex⟩ := scope_of_build body h₂
    have hnumber : Told tokens w w₁ [] fun _ _ _ => True := .takeIndex h₁
    have hall := hnumber.append htold
    have hplaces : [keyword.1, opener] <:+: tokens :=
      .trans ⟨[], rest, by simp [Phrase.tokens, htokens]⟩ hwithin
    have hlow : w.store.blocks.size ≤ bid.index := by
      have hle := hnumber.size_le
      have hlt := Told.size_lt htold (by simp [htokens])
      omega
    refine ⟨_, (hall.alternative h₃ false hscope hlow
      ⟨keyword.1, opener, hplaces, rfl, rfl⟩).mono fun s c l hunder => ?_⟩
    obtain ⟨hflag, l', ⟨-, hread'⟩, hread⟩ := hunder
    simp only [Nonterminal.ReadsAs] at hread'
    simp [Nonterminal.ReadsAs, hread, Block.words, hflag, hread', Phrase.tokens, hkeyword]
  | elseIf keyword condition body chain ihc ihb ihch =>
    have hkeyword := hshape hwithin (.head _) keyword.2 rfl
    obtain ⟨hc, hb, hch⟩ := infix_parts hwithin
    intro w ids w' h
    simp only [Phrase.build, bind_eq_ok] at h
    obtain ⟨index, w₁, h₁, inner, w₂, h₂, row, w₃, h₃, bid, w₄, h₄, id, w₅, h₅, h⟩ := h
    obtain ⟨rfl, rfl⟩ := pure_eq_ok.mp h
    obtain ⟨_, hbranch⟩ :=
      told_addBranch (ihc hc (depth + 1)) (ihb hb (depth + 1)) (ihch hch (depth + 1)) h₃
    have hall := (((Told.takeIndex h₁).append (Told.takeIndex h₂)).append hbranch)
    have hscope := hall.node h₄
    have hsize := hall.size_le
    have hbid : bid = w₃.store.nextBlock ∧
        w₄.store.block? bid = some (.scope .brace keyword.1.location row) := by
      obtain ⟨-, rfl, rfl⟩ := addBlock_eq_ok.mp h₄
      exact ⟨rfl, Store.block?_withBlock ..⟩
    have hlow : w.store.blocks.size ≤ bid.index := by
      rw [hbid.1]
      exact hsize
    refine ⟨_, (hscope.alternative h₅ true hbid.2 hlow rfl).mono fun s c l hunder => ?_⟩
    obtain ⟨hflag, l', ⟨l'', ⟨-, hrow⟩, hread'⟩, hread⟩ := hunder
    simp [Nonterminal.ReadsAs, hread, Block.words, hflag, hread', hrow, Phrase.tokens, hkeyword]

/-! ## Definitions -/

/-- A definition is added. -/
theorem Told.define {d : Definition} {u : Unit} (h : define d w = .ok u w') :
    Told tokens w w' [] fun s _ _ => ∃ d', s.def? w.store.nextDef = some d' ∧
      d'.marked = { d with index := w.symbols.length }.marked := by
  obtain ⟨-, rfl⟩ := define_eq_ok.mp h
  exact .skip (.withDef ..) rfl fun final _ _ hfinal =>
    hfinal.definition _ _ (Store.def?_withDef ..)

/-- **The body of a function**, which is added before its blocks and filled behind them. -/
theorem Told.enclose {w₁ w₂ : Workspace} {location : Location} {body : BlockId}
    {marks : List (BlockId × Bool)} {P : Store → (BlockId → Bool) → Nat → Prop} {ids : List BlockId}
    {u : Unit} (hadd : addBlock (.scope .brace location []) w = .ok body w₁)
    (h : Told tokens w₁ w₂ marks P) (hfill : fillScope body ids w₂ = .ok u w') :
    Told tokens w w' marks (Told.Under P (.scope .brace location ids) body) := by
  obtain ⟨-, rfl, rfl⟩ := addBlock_eq_ok.mp hadd
  rw [fillScope_eq] at hfill
  cases hfill
  have hnew : (w.store.withBlock (.scope .brace location [])).blocks.size =
      w.store.blocks.size + 1 := Array.size_push ..
  have hsize : (w₂.store.modifyBlock w.store.nextBlock (filled ids)).blocks.size =
      w₂.store.blocks.size := w₂.store.size_blocks_modifyBlock ..
  have hle := h.size_le
  have hrange := h.range
  have hholds := h.holds
  have hplaced := h.placed
  simp only [hnew] at hle hrange hholds hplaced
  -- the blocks of the body lie behind the one that is filled
  have hfirst {final : Store}
      (hfinal : (w₂.store.modifyBlock w.store.nextBlock (filled ids)).Persists
        w.store.blocks.size final) : w₂.store.Persists (w.store.blocks.size + 1) final :=
    (Store.Persists.modifyBlock w₂.store (Nat.lt_succ_self _) (filled ids)).trans
      (hfinal.mono (Nat.le_succ _))
  have hbefore : w.store.Persists 0 w₂.store := (Store.Persists.withBlock ..).trans h.persists
  have hbody : (w₂.store.modifyBlock w.store.nextBlock (filled ids)).block? w.store.nextBlock =
      some (.scope .brace location ids) := by
    obtain ⟨block, hblock, heq⟩ := h.persists.block _ _ (Nat.zero_le _) (Store.block?_withBlock ..)
    rw [Store.block?_modifyBlock, if_pos rfl, hblock, Block.eq_of_unjoined heq (by simp)]
    rfl
  have hnone : w.store.block? w.store.nextBlock = none := by
    rw [Store.block?, Store.nextBlock, if_pos rfl]
    exact Array.getElem?_eq_none (Nat.le_refl _)
  refine ⟨?_, hbefore.modifyNew hnone _, ?_, h.nodup, ?_,
    fun final hfinal => hplaced final (hfirst hfinal)⟩
  · change _ ≤ (w₂.store.modifyBlock w.store.nextBlock (filled ids)).blocks.size
    omega
  · intro mark hmark
    have := hrange mark hmark
    change _ ∧ _ < (w₂.store.modifyBlock w.store.nextBlock (filled ids)).blocks.size
    omega
  · intro final chained levels hfinal hmarks hlevels
    change (w₂.store.modifyBlock w.store.nextBlock (filled ids)).blocks.size ≤ _ at hlevels
    obtain ⟨levels, rfl⟩ := Nat.exists_eq_add_of_lt (show 0 < levels by omega)
    rw [Nat.zero_add] at hlevels ⊢
    obtain ⟨block', hblock', heq⟩ := hfinal.block _ _ (Nat.le_refl _) hbody
    exact ⟨levels, hholds final chained levels (hfirst hfinal) hmarks (by omega),
      readBlock_eq hblock' heq chained levels⟩

theorem Definition.of_marked {d d' : Definition} (h : d'.marked = d.marked) :
    d'.ident = d.ident ∧ d'.place = d.place ∧ d'.body = d.body := by
  obtain ⟨_, _, _, _, _, _⟩ := d
  obtain ⟨_, _, _, _, _, _⟩ := d'
  simp only [marked, Definition.mk.injEq] at h
  exact ⟨h.2.1, h.2.2.1, h.2.2.2.2.2⟩

/-- The definition that was added keeps the tokens of its phrase, if what it defines does. -/
theorem DefinitionPhrase.keeps_of_marked (p : DefinitionPhrase) {store : Store}
    {read : BlockId → List Shape} {id : DefId} {used : Bool} {index index' : Nat}
    {body : DefinitionBody} {d : Definition}
    (hd : store.def? id = some d)
    (hmarked : d.marked = { (⟨p.header.keyword.location, p.header.ident, p.header.place, used, index,
      body⟩ : Definition) with index := index' }.marked) (hbody : KeepsSubject read body p.subject) :
    KeepsTokens store read id p := by
  obtain ⟨hident, hplace, hsubject⟩ := Definition.of_marked hmarked
  refine ⟨d, hd, hident, fun place h => ?_, hsubject ▸ hbody⟩
  rw [hplace, header, placeToken, h]
  rfl

/-- A definition without a body. -/
theorem DefinitionPhrase.told_data (p : DefinitionPhrase) {body : DefinitionBody}
    (hbody : ∀ read, KeepsSubject read body p.subject) {u : Unit}
    (h : define ⟨p.header.keyword.location, p.header.ident, p.header.place, false, 0, body⟩ w =
      .ok u w') :
    (∃ name, w'.symbols = w.symbols ++ [(name, w.store.nextDef)]) ∧
      ∃ marks, Told tokens w w' marks
        fun s c l => KeepsTokens s (readBlock s c l) w.store.nextDef p := by
  have htold : Told tokens w w' [] _ := .define h
  obtain ⟨-, rfl⟩ := define_eq_ok.mp h
  refine ⟨⟨_, rfl⟩, [], htold.mono fun s c l hdefined => ?_⟩
  obtain ⟨d, hd, hmarked⟩ := hdefined
  exact p.keeps_of_marked hd hmarked (hbody _)

/-- **What a definition adds to the store keeps the tokens of its phrase.** -/
theorem DefinitionPhrase.told (hspelled : ∀ t ∈ tokens, t.Spelled)
    (hfaithful : ∀ t ∈ tokens, t.Faithful) (p : DefinitionPhrase) (hwithin : p.tokens <:+: tokens)
    {u : Unit} (h : p.build options w = .ok u w') :
    (∃ name, w'.symbols = w.symbols ++ [(name, w.store.nextDef)]) ∧
      ∃ marks, Told tokens w w' marks
        fun s c l => KeepsTokens s (readBlock s c l) w.store.nextDef p := by
  obtain ⟨_, w₁, h₁, h⟩ := bind_eq_ok.mp h
  obtain ⟨-, rfl⟩ := checkName_eq_ok.mp h₁
  cases hsubject : p.subject with
  | memory m =>
    rw [hsubject] at h
    exact p.told_data (fun _ => by rw [hsubject]; exact rfl) h
  | string t =>
    rw [hsubject] at h
    exact p.told_data (fun _ => by rw [hsubject]; exact rfl) h
  | function f =>
    have hbody : f.bodyTokens <:+: tokens := by
      refine .trans ⟨placeTokens p.place ++ f.keyword.1 :: f.name.1 ::
        (parensTokens f.parens ++ f.signature.tokens), [], ?_⟩ hwithin
      simp [DefinitionPhrase.tokens, hsubject, SubjectPhrase.tokens, FunctionPhrase.bodyTokens]
    have hinside : f.inside.tokens <:+: tokens :=
      .trans ⟨[f.opener.1], [f.closer.1], by simp [FunctionPhrase.bodyTokens]⟩ hbody
    rw [hsubject] at h
    simp only [SubjectPhrase.build, beginFunction, bind_eq_ok] at h
    obtain ⟨id, w₃, hbegin, ids, w₄, hbuild, hfill⟩ := h
    obtain ⟨_, w₁, hadd, _, w₂, hdefine, _, w₃', hdepth, hpure⟩ := hbegin
    obtain ⟨rfl, rfl⟩ := pure_eq_ok.mp hpure
    obtain ⟨-, rfl⟩ := checkDepth_eq_ok.mp hdepth
    have hnext : w₁.store.nextDef = w.store.nextDef ∧ w₁.symbols = w.symbols := by
      obtain ⟨-, -, rfl⟩ := addBlock_eq_ok.mp hadd
      exact ⟨rfl, rfl⟩
    constructor
    · obtain ⟨_, -, hadds⟩ :=
        f.inside.plants (fun t ht => hfaithful t (hinside.mem ht)) 1 _ _ _ hbuild
      obtain ⟨-, rfl⟩ := define_eq_ok.mp hdefine
      rw [fillScope_eq] at hfill
      cases hfill
      exact ⟨_, by rw [← hnext.1, ← hnext.2]; exact hadds.symbols⟩
    · obtain ⟨marks, htold⟩ := f.inside.told hspelled hinside 1 _ _ _ hbuild
      refine ⟨_, (Told.enclose hadd ((Told.define hdefine).append htold) hfill).mono
        fun s c l hunder => ?_⟩
      obtain ⟨l', ⟨⟨d, hd, hmarked⟩, hread'⟩, hread⟩ := hunder
      rw [hnext.1] at hd
      refine p.keeps_of_marked hd hmarked ?_
      have hopener := Token.shape_eq (hspelled _ (hbody.mem (.head _))) f.opener.2 rfl
      have hcloser := Token.shape_eq
        (hspelled _ (hbody.mem (by simp [FunctionPhrase.bodyTokens]))) f.closer.2 rfl
      rw [hsubject, KeepsSubject, f.types_eq]
      refine ⟨rfl, rfl, ?_⟩
      simp only [Nonterminal.ReadsAs] at hread'
      simp [hread, Block.words, hread', FunctionPhrase.bodyTokens, hopener, hcloser]

/-- **Definitions in a row.** -/
theorem told_definitions (hspelled : ∀ t ∈ tokens, t.Spelled)
    (hfaithful : ∀ t ∈ tokens, t.Faithful) {ds : List DefinitionPhrase}
    (hwithin : ds.flatMap DefinitionPhrase.tokens <:+: tokens) {u : Unit}
    (h : ds.forM (DefinitionPhrase.build options) w = .ok u w') :
    ∃ marks ids, w'.symbols.map Prod.snd = w.symbols.map Prod.snd ++ ids ∧
      Told tokens w w' marks fun s c l => List.Forall₂ (KeepsTokens s (readBlock s c l)) ids ds := by
  induction ds generalizing w with
  | nil =>
    obtain ⟨-, rfl⟩ := pure_eq_ok.mp h
    exact ⟨[], [], (List.append_nil _).symm, (Told.refl w).mono fun _ _ _ _ => .nil⟩
  | cons d ds ih =>
    rw [List.flatMap_cons] at hwithin
    have hd : d.tokens <:+: tokens := .trans ⟨[], _, rfl⟩ hwithin
    have hds : ds.flatMap DefinitionPhrase.tokens <:+: tokens :=
      .trans ⟨d.tokens, [], List.append_nil _⟩ hwithin
    obtain ⟨_, w₁, h₁, h⟩ := bind_eq_ok.mp h
    obtain ⟨⟨name, hsymbols⟩, marks₁, htold₁⟩ := d.told hspelled hfaithful hd h₁
    obtain ⟨marks₂, ids, hids, htold₂⟩ := ih hds h
    refine ⟨_, w.store.nextDef :: ids, ?_, (htold₁.append htold₂).mono fun s c l hkeeps =>
      .cons hkeeps.1 hkeeps.2⟩
    rw [hids, hsymbols]
    simp

end Phrases

/-! ## Units -/

/-- **The places tell which alternatives were made for `elif`.** -/
theorem isChained_of_placed {source : List Char} (hlength : source.length < Location.limit)
    {store : Store} {mark : BlockId × Bool}
    (h : Placed (Lexer.ofChars source).run.tokens store mark) : store.isChained mark.1 = mark.2 := by
  obtain ⟨location, body, index, bracket, location', children, hblock, hbody, hflag⟩ := h
  simp only [Store.isChained, hblock, hbody]
  cases hmark : mark.2 with
  | true =>
    rw [hmark, if_pos rfl] at hflag
    exact beq_iff_eq.mpr hflag
  | false =>
    rw [hmark] at hflag
    obtain ⟨keyword, opener, hplaces, rfl, rfl⟩ := hflag
    exact beq_eq_false_iff_ne.mpr (Lexer.location_ne hlength hplaces).symm

/-- Marks without repetition are told by some function. -/
theorem exists_marked {marks : List (BlockId × Bool)} (h : (marks.map Prod.fst).Nodup) :
    ∃ chained : BlockId → Bool, ∀ mark ∈ marks, chained mark.1 = mark.2 := by
  refine ⟨fun id => decide ((id, true) ∈ marks), fun mark hmark => ?_⟩
  obtain ⟨id, flag⟩ := mark
  cases flag with
  | true => exact decide_eq_true hmark
  | false =>
    refine decide_eq_false fun htrue => ?_
    have heq := List.inj_on_of_nodup_map h hmark htrue rfl
    cases heq

/-- **A unit keeps the tokens of its source**: the definitions keep those of the phrases that the
source derives from, in order. The places tell the alternatives made for `elif`, as long as no counter
of lines or columns has come to its end. -/
structure KeepsSource (source : List Char) (store : Store) (unit : List DefId)
    (ds : List DefinitionPhrase) (chained : BlockId → Bool) : Prop where
  derives : Derives source ds
  keeps : List.Forall₂ (KeepsTokens store (readBack store chained)) unit ds
  chained_eq : source.length < Location.limit → chained = store.isChained

/-- **Every unit that is parsed keeps the tokens of its source.** -/
theorem parseChars_keepsSource {options : ParseOptions} {store : Store} {source : List Char}
    {unit : List DefId} (h : (parseChars options store source).outcome = .ok unit) :
    ∃ ds chained, KeepsSource source (parseChars options store source).store unit ds chained := by
  have hparsed : parseChars options store source =
      ⟨.ok unit, (parseChars options store source).store⟩ := by rw [← h]
  obtain ⟨ds, w', hderives, hbuild, hunit, hstore⟩ := parseChars_eq_ok.mp hparsed
  rw [hstore, hunit]
  obtain ⟨last, htokenize, -⟩ := id hderives
  have hwithin : ds.flatMap DefinitionPhrase.tokens <:+: (Lexer.ofChars source).run.tokens :=
    ⟨[], [last], by rw [(tokenize_eq_ok.mp htokenize).2, List.nil_append]⟩
  have hfaithful := (Lexer.run_ofChars_whole source).faithful
  obtain ⟨marks, ids, hids, htold⟩ :=
    told_definitions (Lexer.run_spelled source) hfaithful hwithin hbuild
  have hkeeps {chained : BlockId → Bool} (hmarks : ∀ mark ∈ marks, chained mark.1 = mark.2) :
      List.Forall₂ (KeepsTokens w'.store (readBack w'.store chained))
        (w'.symbols.map Prod.snd) ds := by
    rw [hids]
    exact htold.holds w'.store chained _ (.refl _) hmarks (Nat.le_add_right ..)
  by_cases hlength : source.length < Location.limit
  · refine ⟨ds, w'.store.isChained, hderives, hkeeps fun mark hmark => ?_, fun _ => rfl⟩
    exact isChained_of_placed hlength (htold.placed w'.store (.refl _) mark hmark)
  · obtain ⟨chained, hchained⟩ := exists_marked htold.nodup
    exact ⟨ds, chained, hderives, hkeeps hchained, fun hlt => absurd hlt hlength⟩

/-- A chain of branches, with types inside and behind the parentheses of the signature. -/
theorem keepsSource_chain :
    let source := "sec s func f (req u8 ret i8) req ptr { if (1) { 2 } elif [0] { } else { f call } }"
    let parsed := parseChars {} (Store.empty 100) source.toList
    parsed.outcome = .ok [⟨0, 0⟩] ∧
      ∃ ds chained, KeepsSource source.toList parsed.store [⟨0, 0⟩] ds chained :=
  ⟨by decide +kernel, parseChars_keepsSource (by decide +kernel)⟩

end StackCompiler
