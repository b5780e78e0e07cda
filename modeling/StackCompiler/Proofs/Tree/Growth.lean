import StackCompiler.Proofs.Grammar.Steps
import StackCompiler.Proofs.Token.Faithful
import StackCompiler.Proofs.Tree.Forest

/-!
# The forests that are built

Building a phrase puts the blocks of a forest behind those of the store, in order, and takes the
numbers of the forest in order. Building a definition puts one more definition behind the others.

* `Grows`: blocks and numbers that are added.
* `Adds`: the same, while the definitions stay.
* **`Phrase.plants`**: a phrase leaves its forest behind.
* `Chunk`, `AddsChunk`: a definition and the forest of its body.
* **`DefinitionPhrase.addsChunk`**: a definition leaves its chunk behind.
-/

namespace StackCompiler

/-! ## Blocks and numbers -/

/-- The handles of the next blocks. -/
def Store.handles (store : Store) (count : Nat) : List BlockId :=
  (List.range' store.blocks.size count).map fun index => ⟨index, store.generation⟩

theorem modify_length_append {α : Type} (f : α → α) (l l' : List α) (a : α) :
    (l ++ a :: l').modify l.length f = l ++ f a :: l' := by
  induction l with
  | nil => rfl
  | cons b l ih => exact congrArg _ ih

/-- **Blocks and numbers are added**, in order. -/
structure Grows (w w' : Workspace) (c : Contents) : Prop where
  blocks : w'.store.blocks.toList = w.store.blocks.toList ++ c.nodes.map Prod.snd
  ids : c.ids = w.store.handles c.nodes.length
  generation : w'.store.generation = w.store.generation
  numbers : c.numbers = List.range' w.nextIndex c.numbers.length
  nextIndex : w'.nextIndex = w.nextIndex + c.numbers.length

namespace Grows

variable {w w₁ w' : Workspace} {c d : Contents}

theorem refl (w : Workspace) : Grows w w .empty :=
  ⟨(List.append_nil _).symm, rfl, rfl, rfl, rfl⟩

theorem size_blocks (h : Grows w w' c) :
    w'.store.blocks.size = w.store.blocks.size + c.nodes.length := by
  have := congrArg List.length h.blocks
  simpa using this

theorem append (h : Grows w w₁ c) (h' : Grows w₁ w' d) : Grows w w' (c ++ d) := by
  refine ⟨?_, ?_, h'.generation.trans h.generation, ?_, ?_⟩
  · rw [h'.blocks, h.blocks, Contents.nodes_append, List.map_append, List.append_assoc]
  · rw [Contents.ids_append, h.ids, h'.ids, Store.handles, Store.handles, Store.handles,
      h.size_blocks, h.generation, ← List.map_append, List.range'_append_1, Contents.nodes_append,
      List.length_append]
  · rw [Contents.numbers_append, List.length_append, ← List.range'_append_1, ← h.numbers,
      ← h.nextIndex, ← h'.numbers]
  · rw [h'.nextIndex, h.nextIndex, Contents.numbers_append, List.length_append, Nat.add_assoc]

theorem addBlock {block : Block} {id : BlockId} (h : addBlock block w = .ok id w') :
    Grows w w' (.node id block) := by
  obtain ⟨-, rfl, rfl⟩ := addBlock_eq_ok.mp h
  exact ⟨Array.toList_push, rfl, rfl, rfl, rfl⟩

theorem takeIndex {index : Nat} (h : takeIndex w = .ok index w') : Grows w w' (.number index) := by
  rw [takeIndex_eq] at h
  cases h
  exact ⟨(List.append_nil _).symm, rfl, rfl, rfl, rfl⟩

/-- A change of one of the blocks that were added. -/
theorem modifyBlock {id : BlockId} {block : Block} (h : Grows w w' (c ++ .node id block ++ d))
    (f : Block → Block) :
    Grows w { w' with store := w'.store.modifyBlock id f } (c ++ .node id (f block) ++ d) := by
  have hid : id = ⟨w.store.blocks.size + c.nodes.length, w.store.generation⟩ := by
    have hget := congrArg (·[c.nodes.length]?) h.ids
    simpa [Contents.ids, Store.handles, Contents.node] using hget
  have hgeneration : id.generation = w'.store.generation := by rw [hid, h.generation]
  have hmodify : w'.store.modifyBlock id f =
      { w'.store with blocks := w'.store.blocks.modify id.index f } := by
    rw [Store.modifyBlock, if_pos hgeneration]
  have hblocks : (w'.store.blocks.modify id.index f).toList =
      w.store.blocks.toList ++ (c ++ .node id (f block) ++ d).nodes.map Prod.snd := by
    have hlength : id.index = (w.store.blocks.toList ++ c.nodes.map Prod.snd).length := by
      rw [hid]
      simp
    rw [Array.toList_modify, h.blocks, hlength]
    simp only [Contents.nodes_append, Contents.node, List.map_append, List.append_assoc,
      List.map_cons, List.cons_append, List.nil_append]
    rw [← List.append_assoc, ← List.append_assoc]
    exact modify_length_append ..
  rw [hmodify]
  refine ⟨hblocks, ?_, h.generation, h.numbers, h.nextIndex⟩
  have hids := h.ids
  simp only [Contents.ids_append, Contents.nodes_append, Contents.node,
    List.length_append, List.length_cons, List.length_nil] at hids ⊢
  exact hids

/-- **The store holds what was added.** -/
theorem stored (h : Grows w w' c) : c.Stored w'.store := by
  intro p hp
  obtain ⟨k, hlt, rfl⟩ := List.getElem_of_mem hp
  have hid : c.nodes[k].1 = ⟨w.store.blocks.size + k, w.store.generation⟩ := by
    have hget := congrArg (·[k]?) h.ids
    simpa [Contents.ids, Store.handles, hlt] using hget
  refine Store.block?_eq_some.mpr ⟨by rw [hid, h.generation], ?_⟩
  rw [hid, ← Array.getElem?_toList, h.blocks, List.getElem?_append_right (by simp)]
  simp [hlt]

end Grows

/-! ## Blocks beside definitions -/

/-- The definition as if it were used. -/
def Definition.marked (d : Definition) : Definition := { d with used := true }

theorem Store.marked_def? {store store' : Store} (hgeneration : store'.generation = store.generation)
    (hdefs : store'.defs.toList.map Definition.marked = store.defs.toList.map Definition.marked)
    (id : DefId) :
    (store'.def? id).map Definition.marked = (store.def? id).map Definition.marked := by
  rw [Store.def?, Store.def?, hgeneration]
  split_ifs
  · have hget := congrArg (·[id.index]?) hdefs
    simpa using hget
  · rfl

/-- The token is a name as it was read. -/
def Token.IsName (token : Token) : Prop := token.kind = .identifier ∧ token.Faithful

theorem Token.IsName.nameText {token : Token} (h : token.IsName) : token.nameText = token.text := by
  obtain ⟨hkind, hfaithful⟩ := h
  rw [Token.Faithful, hkind] at hfaithful
  rw [Token.nameText, Token.text?, show token.value = .text token.text from hfaithful]
  rfl

/-- **A leaf fits a workspace**: literals carry their values, names stand for definitions, and what
is called is a function. -/
def Leaf.Fits (w : Workspace) : Leaf → Prop
  | .expression token => token.kind.isExpression = true ∧ token.Faithful
  | .reference token target => token.IsName ∧ w.symbols.lookup token.text = some target
  | .call _ _ token target => token.IsName ∧ w.symbols.lookup token.text = some target ∧
    (w.store.def? target).map Definition.isFunction = some true
  | .cast .. | .assembly _ => True

theorem Leaf.fits_congr (l : Leaf) {w w' : Workspace} (hsymbols : w'.symbols = w.symbols)
    (hfunction : ∀ id, (w'.store.def? id).map Definition.isFunction =
      (w.store.def? id).map Definition.isFunction) : l.Fits w' ↔ l.Fits w := by
  cases l with
  | call location callee token target => rw [Leaf.Fits, Leaf.Fits, hsymbols, hfunction]
  | reference token target => rw [Leaf.Fits, Leaf.Fits, hsymbols]
  | _ => exact Iff.rfl

/-- **Blocks and numbers are added while definitions and names stay.** Definitions may become
used. -/
structure Adds (w w' : Workspace) (c : Contents) : Prop extends Grows w w' c where
  symbols : w'.symbols = w.symbols
  defs : w'.store.defs.toList.map Definition.marked = w.store.defs.toList.map Definition.marked
  fits : ∀ l ∈ c.leaves, l.Fits w

namespace Adds

variable {w w₁ w' : Workspace} {c d : Contents}

theorem refl (w : Workspace) : Adds w w .empty :=
  ⟨.refl w, rfl, rfl, fun _ hl => absurd hl List.not_mem_nil⟩

theorem isFunction (h : Adds w w' c) (id : DefId) :
    (w'.store.def? id).map Definition.isFunction = (w.store.def? id).map Definition.isFunction := by
  have hmarked := Store.marked_def? h.generation h.defs id
  have hmap (d : Option Definition) :
      d.map Definition.isFunction = (d.map Definition.marked).map Definition.isFunction := by
    rw [Option.map_map]
    rfl
  rw [hmap, hmarked, ← hmap]

theorem fits_iff (h : Adds w w' c) (l : Leaf) : l.Fits w' ↔ l.Fits w :=
  l.fits_congr h.symbols h.isFunction

theorem append (h : Adds w w₁ c) (h' : Adds w₁ w' d) : Adds w w' (c ++ d) := by
  refine ⟨h.toGrows.append h'.toGrows, h'.symbols.trans h.symbols, h'.defs.trans h.defs, ?_⟩
  rw [Contents.leaves_append]
  exact List.forall_mem_append.mpr ⟨h.fits, fun l hl => (h.fits_iff l).mp (h'.fits l hl)⟩

theorem addBlock {block : Block} {id : BlockId} (h : addBlock block w = .ok id w') :
    Adds w w' (.node id block) := by
  refine ⟨Grows.addBlock h, ?_, ?_, fun _ hl => absurd hl List.not_mem_nil⟩ <;>
    obtain ⟨-, rfl, rfl⟩ := addBlock_eq_ok.mp h <;> rfl

theorem takeIndex {index : Nat} (h : takeIndex w = .ok index w') : Adds w w' (.number index) := by
  refine ⟨Grows.takeIndex h, ?_, ?_, fun _ hl => absurd hl List.not_mem_nil⟩ <;>
    rw [takeIndex_eq] at h <;> cases h <;> rfl

/-- The block of a leaf is added. -/
theorem leaf {l : Leaf} {id : BlockId} (h : Adds w w' ⟨l.nodes id, [], []⟩) (hl : l.Fits w) :
    Adds w w' (.ofLeaf id l) :=
  ⟨⟨h.blocks, h.ids, h.generation, h.numbers, h.nextIndex⟩, h.symbols, h.defs,
    List.forall_mem_singleton.mpr hl⟩

/-- A change of one of the blocks that were added. -/
theorem modifyBlock {id : BlockId} {block : Block} (h : Adds w w' (c ++ .node id block ++ d))
    (f : Block → Block) :
    Adds w { w' with store := w'.store.modifyBlock id f } (c ++ .node id (f block) ++ d) := by
  refine ⟨h.toGrows.modifyBlock f, h.symbols, ?_, h.fits⟩
  rw [← h.defs, Store.modifyBlock]
  split_ifs <;> rfl

theorem markUsed (w : Workspace) (target : DefId) : Adds w (w.markUsed target) .empty := by
  have hmarked : (w.markUsed target).store.defs.toList.map Definition.marked =
      w.store.defs.toList.map Definition.marked := by
    change (w.store.modifyDef target _).defs.toList.map _ = _
    rw [Store.modifyDef]
    split_ifs
    · refine List.ext_getElem? fun i => ?_
      simp only [Array.toList_modify, List.getElem?_map, List.getElem?_modify]
      cases w.store.defs.toList[i]? with
      | none => rfl
      | some d =>
        simp only [Option.map_some]
        split_ifs <;> rfl
    · rfl
  have hblocks : (w.markUsed target).store.blocks = w.store.blocks :=
    Store.blocks_modifyDef ..
  have hgeneration : (w.markUsed target).store.generation = w.store.generation :=
    Store.generation_modifyDef ..
  refine ⟨⟨?_, rfl, hgeneration, rfl, rfl⟩, rfl, hmarked, fun _ hl => absurd hl List.not_mem_nil⟩
  rw [hblocks]
  exact (List.append_nil _).symm

/-- **A reference is added**, and its name stands for its target. -/
theorem addReference {name : Token} {id : BlockId} (h : addReference name w = .ok id w') :
    ∃ target, w.symbols.lookup name.text = some target ∧
      Adds w w' (.node id (.reference name target)) := by
  obtain ⟨target, hlookup, h⟩ := addReference_eq_ok.mp h
  exact ⟨target, hlookup, (markUsed w target).append (addBlock h)⟩

/-- **A call is added**, and its name stands for a function. -/
theorem addCall {name keyword : Token} {id : BlockId} (h : addCall name keyword w = .ok id w') :
    ∃ callee target, w.symbols.lookup name.text = some target ∧
      (w.store.def? target).map Definition.isFunction = some true ∧
      Adds w w' (.node callee (.reference name target) ++
        .node id (.call keyword.location callee)) := by
  obtain ⟨callee, w₁, h₁, h⟩ := bind_eq_ok.mp h
  rw [get_bind] at h
  split_ifs at h with hnames
  · obtain ⟨target, hlookup, hadds⟩ := addReference h₁
    refine ⟨callee, target, hlookup, ?_, hadds.append (addBlock h)⟩
    rw [← hadds.isFunction]
    have hblock : w₁.store.block? callee = some (.reference name target) :=
      Contents.stored_node.mp hadds.stored
    rw [namesFunction, hblock] at hnames
    cases hdef : w₁.store.def? target with
    | none => simp [hdef] at hnames
    | some d => simpa [hdef] using hnames
  · exact absurd h failAt_ne_ok

end Adds

/-! ## Phrases -/

/-- **What phrases leave behind**: forests, scopes around forests, alternatives. -/
def Nonterminal.Leaves : (n : Nonterminal) → n.Handle → Contents → Prop
  | .block, ids, c | .blocks, ids, c => ∃ F : Forest, ids = F.tops ∧ c = F.contents
  | .scope, id, c => ∃ (head : ScopeHead) (F : Forest), id = head.id ∧
    c = F.contents ++ head.node F.tops
  | .chain, ids, c => (ids = [] ∧ c = .empty) ∨ ∃ (a : Junction) (o : ScopeHead) (F : Forest),
    ids = [a.id] ∧ c = .number a.index ++ (F.contents ++ o.node F.tops) ++ a.alternative o

/-- **The step adds what phrases of a kind leave behind.** -/
def Plants (n : Nonterminal) (m : ParseM n.Handle) : Prop :=
  ∀ w handle w', m w = .ok handle w' → ∃ c, n.Leaves handle c ∧ Adds w w' c

/-- A branch and its alternative. -/
theorem Adds.addBranch {keyword : Token} {index : Nat} {condition body : ParseM BlockId}
    {chain : ParseM (List BlockId)} (hcondition : Plants .scope condition)
    (hbody : Plants .scope body) (hchain : Plants .chain chain) {w w' : Workspace}
    {ids : List BlockId} (h : addBranch keyword index condition body chain w = .ok ids w') :
    ∃ (F : Forest) (c : Contents), ids = F.tops ∧ F.contents = .number index ++ c ∧ Adds w w' c := by
  simp only [StackCompiler.addBranch, bind_eq_ok] at h
  obtain ⟨cid, w₁, h₁, bid, w₂, h₂, jid, w₃, h₃, alternatives, w₄, h₄, _, w₅, h₅, h⟩ := h
  obtain ⟨rfl, rfl⟩ := pure_eq_ok.mp h
  obtain ⟨_, ⟨c, condition, rfl, rfl⟩, hc⟩ := hcondition _ _ _ h₁
  obtain ⟨_, ⟨b, body, rfl, rfl⟩, hb⟩ := hbody _ _ _ h₂
  obtain ⟨_, hchain, ha⟩ := hchain _ _ _ h₄
  have hbranch := ((hc.append hb).append (Adds.addBlock h₃)).append ha
  let j : Junction := ⟨jid, keyword.location, index⟩
  rcases hchain with ⟨rfl, rfl⟩ | ⟨a, o, otherwise, rfl, rfl⟩
  · obtain ⟨-, rfl⟩ := pure_eq_ok.mp h₅
    refine ⟨.branch j c condition b body .nil, _, rfl, ?_, hbranch⟩
    simp only [Forest.contents, Junction.branch, Contents.append_assoc, Contents.append_empty, j]
  · -- The branch is changed when its alternative is known; it is the same block as before.
    rw [joinChain, joinAlternative_eq] at h₅
    cases h₅
    refine ⟨.fork j c condition b body a o otherwise .nil, _, rfl, ?_, hbranch.modifyBlock _⟩
    simp only [Forest.contents, Junction.branch, Contents.append_assoc, Contents.append_empty,
      joined, j]

section Phrases

variable {options : ParseOptions}

/-- A leaf leaves itself behind. -/
theorem plants_leaf {m : ParseM BlockId}
    (hm : ∀ w id w', m w = .ok id w' → ∃ l : Leaf, Adds w w' (.ofLeaf id l)) :
    Plants .block (do return [← m]) := by
  intro w ids w' h
  obtain ⟨id, w₁, h₁, h⟩ := bind_eq_ok.mp h
  obtain ⟨rfl, rfl⟩ := pure_eq_ok.mp h
  obtain ⟨l, hl⟩ := hm w id w₁ h₁
  exact ⟨_, ⟨.leaf id l .nil, rfl, rfl⟩, by simpa using hl⟩

/-- **A phrase leaves a forest behind.** -/
theorem Phrase.plants {n : Nonterminal} (p : Phrase n) (hfaithful : ∀ t ∈ p.tokens, t.Faithful)
    (depth : Nat) : Plants n (p.build options depth) := by
  induction p generalizing depth with
  | expression token =>
    refine plants_leaf fun w id w' h => ⟨.expression token.1, (Adds.addBlock h).leaf ?_⟩
    exact ⟨token.2, hfaithful _ (.head _)⟩
  | reference name =>
    refine plants_leaf fun w id w' h => ?_
    obtain ⟨target, hlookup, hadds⟩ := Adds.addReference h
    exact ⟨.reference name.1 target, hadds.leaf ⟨⟨name.2, hfaithful _ (.head _)⟩, hlookup⟩⟩
  | call name keyword =>
    refine plants_leaf fun w id w' h => ?_
    obtain ⟨callee, target, hlookup, hfunction, hadds⟩ := Adds.addCall h
    exact ⟨.call keyword.1.location callee name.1 target,
      hadds.leaf ⟨⟨name.2, hfaithful _ (.head _)⟩, hlookup, hfunction⟩⟩
  | cast keyword types =>
    exact plants_leaf fun w id w' h => ⟨.cast _ _, (Adds.addBlock h).leaf trivial⟩
  | nested scope ih =>
    intro w ids w' h
    obtain ⟨id, w₁, h₁, h⟩ := bind_eq_ok.mp h
    obtain ⟨rfl, rfl⟩ := pure_eq_ok.mp h
    obtain ⟨_, ⟨head, F, rfl, rfl⟩, hadds⟩ := ih hfaithful depth w id w₁ h₁
    exact ⟨_, ⟨.scope head F .nil, rfl, rfl⟩, by simpa using hadds⟩
  | branch keyword condition body chain ihc ihb ihch =>
    simp only [Phrase.tokens, List.forall_mem_cons, List.forall_mem_append] at hfaithful
    obtain ⟨-, hfc, hfb, hfch⟩ := hfaithful
    intro w ids w' h
    obtain ⟨index, w₁, h₁, h⟩ := bind_eq_ok.mp h
    obtain ⟨F, c, htops, hcontents, hadds⟩ :=
      Adds.addBranch (ihc hfc depth) (ihb hfb depth) (ihch hfch depth) h
    exact ⟨_, ⟨F, htops, rfl⟩, hcontents ▸ (Adds.takeIndex h₁).append hadds⟩
  | loop keyword condition body ihc ihb =>
    simp only [Phrase.tokens, List.forall_mem_cons, List.forall_mem_append] at hfaithful
    obtain ⟨-, hfc, hfb⟩ := hfaithful
    intro w ids w' h
    simp only [Phrase.build, bind_eq_ok] at h
    obtain ⟨index, w₁, h₁, cid, w₂, h₂, bid, w₃, h₃, id, w₄, h₄, h⟩ := h
    obtain ⟨rfl, rfl⟩ := pure_eq_ok.mp h
    obtain ⟨_, ⟨c, condition, rfl, rfl⟩, hc⟩ := ihc hfc depth _ _ _ h₂
    obtain ⟨_, ⟨b, body, rfl, rfl⟩, hb⟩ := ihb hfb depth _ _ _ h₃
    refine ⟨_, ⟨.loop ⟨id, keyword.1.location, index⟩ c condition b body .nil, rfl, rfl⟩, ?_⟩
    simpa using (((Adds.takeIndex h₁).append hc).append hb).append (Adds.addBlock h₄)
  | assembly keyword literal =>
    exact plants_leaf fun w id w' h => ⟨.assembly _, (Adds.addBlock h).leaf trivial⟩
  | nil =>
    intro w ids w' h
    obtain ⟨rfl, rfl⟩ := pure_eq_ok.mp h
    exact ⟨_, ⟨.nil, rfl, rfl⟩, .refl w⟩
  | cons first rest ihf ihr =>
    obtain ⟨hff, hfr⟩ := List.forall_mem_append.mp hfaithful
    intro w ids w' h
    simp only [Phrase.build, bind_eq_ok] at h
    obtain ⟨ids₁, w₁, h₁, ids₂, w₂, h₂, h⟩ := h
    obtain ⟨rfl, rfl⟩ := pure_eq_ok.mp h
    obtain ⟨_, ⟨F, rfl, rfl⟩, hF⟩ := ihf hff depth _ _ _ h₁
    obtain ⟨_, ⟨G, rfl, rfl⟩, hG⟩ := ihr hfr depth _ _ _ h₂
    exact ⟨_, ⟨F ++ G, (F.tops_append G).symm, (F.contents_append G).symm⟩, hF.append hG⟩
  | enclosed bracket opener inside closer ih =>
    simp only [Phrase.tokens, List.forall_mem_cons, List.forall_mem_append] at hfaithful
    intro w id w' h
    simp only [Phrase.build, bind_eq_ok] at h
    obtain ⟨_, w₁, h₁, ids, w₂, h₂, h⟩ := h
    obtain ⟨-, rfl⟩ := checkDepth_eq_ok.mp h₁
    obtain ⟨_, ⟨F, rfl, rfl⟩, hF⟩ := ih hfaithful.2.1 (depth + 1) _ _ _ h₂
    exact ⟨_, ⟨⟨id, bracket, opener.1.location⟩, F, rfl, rfl⟩, hF.append (Adds.addBlock h)⟩
  | stop =>
    intro w ids w' h
    obtain ⟨rfl, rfl⟩ := pure_eq_ok.mp h
    exact ⟨_, .inl ⟨rfl, rfl⟩, .refl w⟩
  | otherwise keyword body ih =>
    obtain ⟨-, hfb⟩ := List.forall_mem_cons.mp hfaithful
    intro w ids w' h
    simp only [Phrase.build, bind_eq_ok] at h
    obtain ⟨index, w₁, h₁, bid, w₂, h₂, id, w₃, h₃, h⟩ := h
    obtain ⟨rfl, rfl⟩ := pure_eq_ok.mp h
    obtain ⟨_, ⟨o, F, rfl, rfl⟩, hF⟩ := ih hfb depth _ _ _ h₂
    exact ⟨_, .inr ⟨⟨id, keyword.1.location, index⟩, o, F, rfl, rfl⟩,
      ((Adds.takeIndex h₁).append hF).append (Adds.addBlock h₃)⟩
  | elseIf keyword condition body chain ihc ihb ihch =>
    simp only [Phrase.tokens, List.forall_mem_cons, List.forall_mem_append] at hfaithful
    obtain ⟨-, hfc, hfb, hfch⟩ := hfaithful
    intro w ids w' h
    simp only [Phrase.build, bind_eq_ok] at h
    obtain ⟨index, w₁, h₁, inner, w₂, h₂, inside, w₃, h₃, bid, w₄, h₄, id, w₅, h₅, h⟩ := h
    obtain ⟨rfl, rfl⟩ := pure_eq_ok.mp h
    obtain ⟨F, c, rfl, hcontents, hadds⟩ := Adds.addBranch (ihc hfc (depth + 1))
      (ihb hfb (depth + 1)) (ihch hfch (depth + 1)) h₃
    have hF : Adds w₁ w₃ F.contents := hcontents ▸ (Adds.takeIndex h₂).append hadds
    exact ⟨_, .inr ⟨⟨id, keyword.1.location, index⟩, ⟨bid, .brace, keyword.1.location⟩, F, rfl, rfl⟩,
      ((Adds.takeIndex h₁).append (hF.append (Adds.addBlock h₄))).append (Adds.addBlock h₅)⟩

end Phrases

/-! ## Definitions -/

/-- **A definition**, and the forest of its body if it is a function. -/
structure Chunk where
  definition : Definition
  body : Option (ScopeHead × Forest)

namespace Chunk

/-- The blocks of a definition: the body of a function is made first. -/
def contents (chunk : Chunk) : Contents :=
  match chunk.body with
  | some (head, inside) => head.node inside.tops ++ inside.contents
  | none => .empty

/-- **What is defined fits the blocks.** -/
def Fits (chunk : Chunk) : Prop :=
  match chunk.definition.body, chunk.body with
  | .function f, some (head, _) => f.body = head.id
  | .memory capacity, none => IsSize capacity ∧ capacity.Faithful
  | .string _, none => True
  | _, _ => False

end Chunk

/-- **A definition is added** behind the others, with its blocks. -/
structure AddsChunk (w w' : Workspace) (chunk : Chunk) : Prop extends
    Grows w w' chunk.contents where
  fits : chunk.Fits
  name : chunk.definition.ident.IsName
  fresh : w.symbols.lookup chunk.definition.ident.text = none
  index : chunk.definition.index = w.symbols.length
  symbols : w'.symbols = w.symbols ++ [(chunk.definition.ident.text, w.store.nextDef)]
  defs : w'.store.defs.toList.map Definition.marked =
    w.store.defs.toList.map Definition.marked ++ [chunk.definition.marked]
  leaves : ∀ l ∈ chunk.contents.leaves, l.Fits w'

section Definitions

variable {options : ParseOptions} {w w' : Workspace}

theorem Grows.define {d : Definition} {u : Unit} (h : define d w = .ok u w') :
    Grows w w' .empty := by
  obtain ⟨-, rfl⟩ := define_eq_ok.mp h
  exact ⟨(List.append_nil _).symm, rfl, rfl, rfl, rfl⟩

/-- A definition without blocks. -/
theorem AddsChunk.data {d : Definition} {u : Unit} (hname : d.ident.IsName)
    (hfresh : w.symbols.lookup d.ident.text = none) (h : define d w = .ok u w')
    (hfits : Chunk.Fits ⟨{ d with index := w.symbols.length }, none⟩) :
    AddsChunk w w' ⟨{ d with index := w.symbols.length }, none⟩ := by
  have hgrows := Grows.define h
  obtain ⟨-, rfl⟩ := define_eq_ok.mp h
  refine ⟨hgrows, hfits, hname, hfresh, rfl, rfl, ?_, fun _ hl => absurd hl List.not_mem_nil⟩
  simp [Store.withDef]

/-- A function: its body is added empty, and filled when its blocks are there. -/
theorem AddsChunk.function {w₁ w₂ w₃ : Workspace} {d : Definition} {f : Function} {body : BlockId}
    {location : Location} {F : Forest} {u : Unit} (hname : d.ident.IsName)
    (hfresh : w.symbols.lookup d.ident.text = none)
    (hbody : addBlock (.scope .brace location []) w = .ok body w₁)
    (hd : d.body = .function f) (hf : f.body = body) (hdefine : define d w₁ = .ok u w₂)
    (hF : Adds w₂ w₃ F.contents) :
    AddsChunk w { w₃ with store := w₃.store.modifyBlock body (filled F.tops) }
      ⟨{ d with index := w.symbols.length }, some (⟨body, .brace, location⟩, F)⟩ := by
  have hfilled : Grows w { w₃ with store := w₃.store.modifyBlock body (filled F.tops) }
      (.empty ++ .node body (filled F.tops (.scope .brace location [])) ++ F.contents) := by
    refine Grows.modifyBlock ?_ _
    exact ((Grows.refl w).append (Grows.addBlock hbody)).append
      ((Grows.define hdefine).append hF.toGrows)
  have hmodify : (w₃.store.modifyBlock body (filled F.tops)).defs = w₃.store.defs := by
    rw [Store.modifyBlock]
    split_ifs <;> rfl
  have hleaves (l : Leaf) (hl : l ∈ F.contents.leaves) :
      l.Fits { w₃ with store := w₃.store.modifyBlock body (filled F.tops) } := by
    have hfits : l.Fits w₃ := (hF.fits_iff l).mpr (hF.fits l hl)
    refine (l.fits_congr (by rfl) fun id => ?_).mpr hfits
    exact congrArg _ (congrFun (Store.def?_modifyBlock ..) id)
  obtain ⟨-, rfl, rfl⟩ := addBlock_eq_ok.mp hbody
  obtain ⟨-, rfl⟩ := define_eq_ok.mp hdefine
  refine ⟨hfilled, ?_, hname, hfresh, rfl, hF.symbols, ?_, hleaves⟩
  · rw [Chunk.Fits, hd]
    exact hf
  · rw [hmodify, hF.defs]
    simp [Store.withDef, Store.withBlock]

/-- **A definition leaves its chunk behind.** -/
theorem DefinitionPhrase.addsChunk {d : DefinitionPhrase} (hfaithful : ∀ t ∈ d.tokens, t.Faithful)
    {u : Unit} (h : d.build options w = .ok u w') : ∃ chunk, AddsChunk w w' chunk := by
  obtain ⟨place, subject⟩ := d
  simp only [DefinitionPhrase.build, bind_eq_ok] at h
  obtain ⟨_, w₁, h₁, h⟩ := h
  obtain ⟨hfresh, rfl⟩ := checkName_eq_ok.mp h₁
  have hsubject : ∀ t ∈ subject.tokens, t.Faithful :=
    fun t ht => hfaithful t (List.mem_append_right _ ht)
  cases subject with
  | memory m =>
    have hname : m.name.1.IsName := ⟨m.name.2, hsubject _ (.tail _ (.head _))⟩
    exact ⟨_, .data hname hfresh h ⟨m.capacity.2, hsubject _ (.tail _ (.tail _ (.head _)))⟩⟩
  | string s =>
    have hname : s.name.1.IsName := ⟨s.name.2, hsubject _ (.tail _ (.head _))⟩
    exact ⟨_, .data hname hfresh h trivial⟩
  | function f =>
    have hname : f.name.1.IsName := ⟨f.name.2, hsubject _ (.tail _ (.head _))⟩
    have hinside : ∀ t ∈ f.inside.tokens, t.Faithful :=
      fun t ht => hsubject t (by simp [SubjectPhrase.tokens, ht])
    simp only [SubjectPhrase.build, beginFunction, bind_eq_ok] at h
    obtain ⟨_, w₁, ⟨body, w₂, h₂, _, w₃, h₃, _, w₄, h₄, h₅⟩, ids, w₆, h₆, h⟩ := h
    obtain ⟨-, rfl⟩ := checkDepth_eq_ok.mp h₄
    obtain ⟨rfl, rfl⟩ := pure_eq_ok.mp h₅
    rw [fillScope_eq] at h
    cases h
    obtain ⟨_, ⟨F, rfl, rfl⟩, hF⟩ := f.inside.plants hinside 1 _ _ _ h₆
    exact ⟨_, .function hname hfresh h₂ rfl rfl h₃ hF⟩

end Definitions

end StackCompiler
