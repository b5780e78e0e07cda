import StackCompiler.Proofs.Cast.Phrase
import StackCompiler.Proofs.Cast.Steps
import StackCompiler.Proofs.Lowering.Unit

/-!
# Building without casts

Phrases are built twice, once as they are and once without some casts. The second building succeeds
whenever the first one does, and leaves the same blocks with other handles, without the casts. A cast
has no code, so the lines are the same.

* `Forest.SameLines`, `Chunk.SameLines`: forests and chunks with the same code.
* **`Phrase.shadows`**: phrases without casts.
* **`DefinitionPhrase.build_erase`**, **`build_erase_definitions`**: definitions without casts.
* `unitLines_eq`: the code of units.
-/

namespace StackCompiler

/-! ## Code that is the same -/

section Code

open Instruction Register

theorem Definition.label_detached (d : Definition) : d.detached.label = d.label := by
  obtain ⟨_, _, _, _, _, body⟩ := d
  cases body <;> rfl

/-- Handles stand for definitions with the same labels. -/
def SameLabels (store store' : Store) : Prop :=
  ∀ id, (store'.def? id).map Definition.label = (store.def? id).map Definition.label

theorem Workspace.Sheds.sameLabels {w v : Workspace} (h : w.Sheds v) :
    SameLabels w.store v.store := fun id => map_eq_of_detached Definition.label_detached (h.def? id)

/-- **The leaves have the same code**, wherever labels are the same. -/
def Leaf.SameLines (l l' : Leaf) : Prop :=
  ∀ store store', SameLabels store store' → l'.lines store' = l.lines store

/-- **The forests have the same code**, wherever labels are the same. -/
def Forest.SameLines (F G : Forest) : Prop :=
  ∀ store store', SameLabels store store' → G.lines store' = F.lines store

/-- What stands behind a definition's label alone. -/
theorem SameLabels.elim_eq {store store' : Store} (h : SameLabels store store') (id : DefId)
    (f : Label → List Line) :
    (store'.def? id).elim [] (fun d => f d.label) = (store.def? id).elim [] fun d => f d.label := by
  have hmap (d : Option Definition) :
      d.elim [] (fun d => f d.label) = (d.map Definition.label).elim [] f := by
    cases d <;> rfl
  rw [hmap, hmap, h id]

theorem Forest.lines_append (store : Store) (F G : Forest) :
    (F ++ G).lines store = F.lines store ++ G.lines store := by
  change (F.append G).lines store = _
  induction F with
  | nil => rfl
  | leaf id l rest ih => simp only [append, lines, ih, List.append_assoc]
  | scope head inside rest _ ih => simp only [append, lines, ih, List.append_assoc]
  | branch j c condition b body rest _ _ ih => simp only [append, lines, ih, List.append_assoc]
  | fork j c condition b body a o otherwise rest _ _ _ ih =>
    simp only [append, lines, ih, List.append_assoc]
  | loop j c condition b body rest _ _ ih => simp only [append, lines, ih, List.append_assoc]

theorem Leaf.sameLines_reference (token : Token) (target : DefId) :
    (Leaf.reference token target).SameLines (.reference token target) := fun _ _ hlabels =>
  hlabels.elim_eq target fun l =>
    [.remark (.token "ident" token.index), code (push (.address l))]

theorem Leaf.sameLines_call (location : Location) (callee callee' : BlockId) (token : Token)
    (target : DefId) :
    (Leaf.call location callee token target).SameLines (.call location callee' token target) :=
  fun _ _ hlabels => hlabels.elim_eq target fun l =>
    [.remark (.token "call" token.index), code (mov rax.whole rsp.whole),
     code (mov rsp.whole (.cell .returnTop)), code (.call l),
     code (mov (.cell .returnTop) rsp.whole), code (mov rsp.whole rax.whole)]

end Code

/-! ## Phrases -/

/-- **What two phrases leave behind**: forests, scopes around forests and alternatives with the same
code. -/
def Nonterminal.LeavesBoth : (n : Nonterminal) → n.Handle → n.Handle → Contents → Contents → Prop
  | .block, ids, ids', c, d | .blocks, ids, ids', c, d => ∃ F G : Forest, ids = F.tops ∧
    ids' = G.tops ∧ c = F.contents ∧ d = G.contents ∧ F.SameLines G
  | .scope, id, id', c, d => ∃ (head head' : ScopeHead) (F G : Forest), id = head.id ∧
    id' = head'.id ∧ c = F.contents ++ head.node F.tops ∧ d = G.contents ++ head'.node G.tops ∧
    F.SameLines G
  | .chain, ids, ids', c, d => (ids = [] ∧ ids' = [] ∧ c = .empty ∧ d = .empty) ∨
    ∃ (a a' : Junction) (o o' : ScopeHead) (F G : Forest), ids = [a.id] ∧ ids' = [a'.id] ∧
      a'.index = a.index ∧
      c = .number a.index ++ (F.contents ++ o.node F.tops) ++ a.alternative o ∧
      d = .number a'.index ++ (G.contents ++ o'.node G.tops) ++ a'.alternative o' ∧ F.SameLines G

/-- A leaf, given that it is added both times. -/
theorem shadows_leaf {m m' : ParseM BlockId}
    (hm : ∀ {w v id w'}, Workspace.Sheds w v → m w = .ok id w' →
      ∃ id' v', m' v = .ok id' v' ∧ w'.Sheds v')
    (hadds : ∀ {w v id id' w' v'}, Workspace.Sheds w v → m w = .ok id w' → m' v = .ok id' v' →
      ∃ l l' : Leaf, Adds w w' (.ofLeaf id l) ∧ Adds v v' (.ofLeaf id' l') ∧ l.SameLines l') :
    Shadows Nonterminal.block.LeavesBoth (do return [← m]) (do return [← m']) := by
  intro w v ids w' hsheds h
  obtain ⟨id, w₁, hrun, h⟩ := bind_eq_ok.mp h
  obtain ⟨rfl, rfl⟩ := pure_eq_ok.mp h
  obtain ⟨id', v', hrun', hsheds'⟩ := hm hsheds hrun
  obtain ⟨l, l', hl, hl', hlines⟩ := hadds hsheds hrun hrun'
  refine ⟨[id'], v', _, _, bind_eq_ok.mpr ⟨id', v', hrun', rfl⟩, hsheds',
    ⟨.leaf id l .nil, .leaf id' l' .nil, rfl, rfl, rfl, rfl, fun store store' hlabels => ?_⟩, ?_, ?_⟩
  · rw [Forest.lines, Forest.lines, hlines store store' hlabels]
    rfl
  · simpa using hl
  · simpa using hl'

/-- **A branch and its alternative, without casts.** -/
theorem Shadows.addBranch {keyword : Token} {index : Nat}
    {condition condition' body body' : ParseM BlockId} {chain chain' : ParseM (List BlockId)}
    (hcondition : Shadows Nonterminal.scope.LeavesBoth condition condition')
    (hbody : Shadows Nonterminal.scope.LeavesBoth body body')
    (hchain : Shadows Nonterminal.chain.LeavesBoth chain chain') :
    Shadows (fun ids ids' c d => ∃ F G : Forest, ids = F.tops ∧ ids' = G.tops ∧
        F.contents = .number index ++ c ∧ G.contents = .number index ++ d ∧ F.SameLines G)
      (addBranch keyword index condition body chain)
      (addBranch keyword index condition' body' chain') := by
  intro w v ids w' hsheds h
  simp only [StackCompiler.addBranch, bind_eq_ok] at h
  obtain ⟨cid, w₁, h₁, bid, w₂, h₂, jid, w₃, h₃, alternatives, w₄, h₄, _, w₅, h₅, h⟩ := h
  obtain ⟨rfl, rfl⟩ := pure_eq_ok.mp h
  obtain ⟨_, v₁, _, _, h₁', hs₁, ⟨c, c', Fc, Gc, rfl, rfl, rfl, rfl, hlc⟩, hc, hc'⟩ :=
    hcondition _ _ _ _ hsheds h₁
  obtain ⟨_, v₂, _, _, h₂', hs₂, ⟨b, b', Fb, Gb, rfl, rfl, rfl, rfl, hlb⟩, hb, hb'⟩ :=
    hbody _ _ _ _ hs₁ h₂
  have hkept : Block.kept? (.branch keyword.location c'.id b'.id none index) =
      Block.kept? (.branch keyword.location c.id b.id none index) := rfl
  obtain ⟨jid', v₃, _, _, h₃', hs₃, ⟨rfl, rfl⟩, hj, hj'⟩ := Shadows.addBlock hkept _ _ _ _ hs₂ h₃
  obtain ⟨alternatives', v₄, _, _, h₄', hs₄, hleaves, ha, ha'⟩ := hchain _ _ _ _ hs₃ h₄
  have hbranch := ((hc.append hb).append hj).append ha
  have hbranch' := ((hc'.append hb').append hj').append ha'
  let j : Junction := ⟨jid, keyword.location, index⟩
  let j' : Junction := ⟨jid', keyword.location, index⟩
  rcases hleaves with ⟨rfl, rfl, rfl, rfl⟩ | ⟨a, a', o, o', Fo, Go, rfl, rfl, hindex, rfl, rfl, hlo⟩
  · obtain ⟨-, rfl⟩ := pure_eq_ok.mp h₅
    refine ⟨[jid'], v₄, _, _, ?_, hs₄, ⟨.branch j c Fc b Fb .nil, .branch j' c' Gc b' Gb .nil, rfl,
      rfl, ?_, ?_, fun store store' hlabels => ?_⟩, hbranch, hbranch'⟩
    · simp only [StackCompiler.addBranch, bind_eq_ok]
      exact ⟨_, v₁, h₁', _, v₂, h₂', _, v₃, h₃', _, v₄, h₄', (), v₄, rfl, rfl⟩
    · simp only [Forest.contents, Junction.branch, Contents.append_assoc, Contents.append_empty, j]
    · simp only [Forest.contents, Junction.branch, Contents.append_assoc, Contents.append_empty, j']
    · simp only [Forest.lines, hlc store store' hlabels, hlb store store' hlabels, j, j']
  · -- The branch is changed when its alternative is known; it is the same block as before.
    rw [joinChain, joinAlternative_eq] at h₅
    cases h₅
    refine ⟨[jid', a'.id], _, _, _, ?_, hs₄.modifyBlock (Block.kept?_joined a.id)
        (Block.kept?_joined a'.id) jid jid', ⟨.fork j c Fc b Fb a o Fo .nil,
        .fork j' c' Gc b' Gb a' o' Go .nil, rfl, rfl, ?_, ?_, fun store store' hlabels => ?_⟩,
      hbranch.modifyBlock _, hbranch'.modifyBlock _⟩
    · simp only [StackCompiler.addBranch, bind_eq_ok]
      exact ⟨_, v₁, h₁', _, v₂, h₂', _, v₃, h₃', _, v₄, h₄', (), _, rfl, rfl⟩
    · simp only [Forest.contents, Junction.branch, Contents.append_assoc, Contents.append_empty,
        joined, j]
    · simp only [Forest.contents, Junction.branch, Contents.append_assoc, Contents.append_empty,
        joined, j']
    · simp only [Forest.lines, hlc store store' hlabels, hlb store store' hlabels,
        hlo store store' hlabels, hindex, j, j']

/-- A cast in front is built the first time only. -/
theorem Shadows.cast_cons {options : ParseOptions} {keyword : Word (.keyword .asType)}
    {types : TypeRun} {rest rest' : Phrase .blocks} {depth : Nat}
    (h : Shadows Nonterminal.blocks.LeavesBoth (rest.build options depth)
      (rest'.build options depth)) :
    Shadows Nonterminal.blocks.LeavesBoth
      ((Phrase.cons (.cast keyword types) rest).build options depth) (rest'.build options depth) := by
  intro w v ids w' hsheds hrun
  simp only [Phrase.build, bind_eq_ok] at hrun
  obtain ⟨_, _, ⟨id, w₁, hcast, hids⟩, more, w₂, hmore, hrun⟩ := hrun
  obtain ⟨rfl, rfl⟩ := pure_eq_ok.mp hids
  obtain ⟨rfl, rfl⟩ := pure_eq_ok.mp hrun
  have hadds : Adds w w₁ (.ofLeaf id (.cast keyword.1.location types.1)) :=
    (Adds.addBlock hcast).leaf trivial
  obtain ⟨-, rfl, rfl⟩ := addBlock_eq_ok.mp hcast
  obtain ⟨ids', v', _, _, hrun', hsheds', ⟨F, G, rfl, rfl, rfl, rfl, hlines⟩, hc, hd⟩ :=
    h _ _ _ _ (hsheds.withCast keyword.1.location types.1) hmore
  exact ⟨G.tops, v', _, _, hrun', hsheds', ⟨.leaf _ (.cast keyword.1.location types.1) F, G, rfl,
    rfl, rfl, rfl, hlines⟩, hadds.append hc, hd⟩

section Phrases

variable (erased : Token → Bool) {options : ParseOptions}

/-- **A phrase without casts is built next to the phrase**, and has the same code. -/
theorem Phrase.shadows {n : Nonterminal} (p : Phrase n) (hfaithful : ∀ t ∈ p.tokens, t.Faithful)
    (depth : Nat) :
    Shadows n.LeavesBoth (p.build options depth) ((p.erase erased).build options depth) := by
  induction p generalizing depth with
  | expression token =>
    refine shadows_leaf (fun hsheds hrun => hsheds.addBlock rfl hrun) fun _ hrun hrun' => ?_
    have hfits (w : Workspace) : (Leaf.expression token.1).Fits w :=
      ⟨token.2, hfaithful _ (.head _)⟩
    exact ⟨_, _, (Adds.addBlock hrun).leaf (hfits _), (Adds.addBlock hrun').leaf (hfits _),
      fun _ _ _ => rfl⟩
  | reference name =>
    refine shadows_leaf (fun hsheds hrun => hsheds.addReference hrun) fun hsheds hrun hrun' => ?_
    have hname : name.1.IsName := ⟨name.2, hfaithful _ (.head _)⟩
    obtain ⟨target, hlookup, hadds⟩ := Adds.addReference hrun
    obtain ⟨target', hlookup', hadds'⟩ := Adds.addReference hrun'
    obtain rfl : target' = target := hsheds.lookup_eq hlookup hlookup'
    exact ⟨.reference name.1 target', .reference name.1 target', hadds.leaf ⟨hname, hlookup⟩,
      hadds'.leaf ⟨hname, hlookup'⟩, Leaf.sameLines_reference _ _⟩
  | call name keyword =>
    refine shadows_leaf (fun hsheds hrun => hsheds.addCall hrun) fun hsheds hrun hrun' => ?_
    have hname : name.1.IsName := ⟨name.2, hfaithful _ (.head _)⟩
    obtain ⟨callee, target, hlookup, hfunction, hadds⟩ := Adds.addCall hrun
    obtain ⟨callee', target', hlookup', hfunction', hadds'⟩ := Adds.addCall hrun'
    obtain rfl : target' = target := hsheds.lookup_eq hlookup hlookup'
    exact ⟨.call keyword.1.location callee name.1 target',
      .call keyword.1.location callee' name.1 target', hadds.leaf ⟨hname, hlookup, hfunction⟩,
      hadds'.leaf ⟨hname, hlookup', hfunction'⟩, Leaf.sameLines_call _ _ _ _ _⟩
  | cast keyword types =>
    refine shadows_leaf (fun hsheds hrun => hsheds.addBlock rfl hrun) fun _ hrun hrun' => ?_
    exact ⟨.cast _ _, .cast _ _, (Adds.addBlock hrun).leaf trivial,
      (Adds.addBlock hrun').leaf trivial, fun _ _ _ => rfl⟩
  | assembly keyword literal =>
    refine shadows_leaf (fun hsheds hrun => hsheds.addBlock rfl hrun) fun _ hrun hrun' => ?_
    exact ⟨.assembly _, .assembly _, (Adds.addBlock hrun).leaf trivial,
      (Adds.addBlock hrun').leaf trivial, fun _ _ _ => rfl⟩
  | nested scope ih =>
    refine (ih hfaithful depth).bind fun id id' c d hleaves => .pure ?_
    obtain ⟨head, head', F, G, rfl, rfl, rfl, rfl, hlines⟩ := hleaves
    refine ⟨.scope head F .nil, .scope head' G .nil, rfl, rfl, by simp, by simp, ?_⟩
    intro store store' hlabels
    rw [Forest.lines, Forest.lines, hlines store store' hlabels]
    rfl
  | branch keyword condition body chain ihc ihb ihch =>
    simp only [Phrase.tokens, List.forall_mem_cons, List.forall_mem_append] at hfaithful
    obtain ⟨-, hfc, hfb, hfch⟩ := hfaithful
    refine Shadows.takeIndex.bind ?_
    rintro _ index _ _ ⟨rfl, rfl, rfl⟩
    refine (Shadows.addBranch (ihc hfc depth) (ihb hfb depth) (ihch hfch depth)).mono ?_
    rintro ids ids' c d ⟨F, G, rfl, rfl, hF, hG, hlines⟩
    exact ⟨F, G, rfl, rfl, hF.symm, hG.symm, hlines⟩
  | loop keyword condition body ihc ihb =>
    simp only [Phrase.tokens, List.forall_mem_cons, List.forall_mem_append] at hfaithful
    obtain ⟨-, hfc, hfb⟩ := hfaithful
    refine Shadows.takeIndex.bind ?_
    rintro _ index _ _ ⟨rfl, rfl, rfl⟩
    refine (ihc hfc depth).bind ?_
    rintro _ _ _ _ ⟨c, c', Fc, Gc, rfl, rfl, rfl, rfl, hlc⟩
    refine (ihb hfb depth).bind ?_
    rintro _ _ _ _ ⟨b, b', Fb, Gb, rfl, rfl, rfl, rfl, hlb⟩
    refine (Shadows.addBlock (by rfl)).bind ?_
    rintro id id' _ _ ⟨rfl, rfl⟩
    refine .pure ?_
    refine ⟨.loop ⟨id, keyword.1.location, index⟩ c Fc b Fb .nil,
      .loop ⟨id', keyword.1.location, index⟩ c' Gc b' Gb .nil, rfl, rfl, ?_, ?_, ?_⟩
    · simp [Contents.append_assoc]
    · simp [Contents.append_assoc]
    · intro store store' hlabels
      simp only [Forest.lines, hlc store store' hlabels, hlb store store' hlabels]
  | nil => exact .pure ⟨.nil, .nil, rfl, rfl, rfl, rfl, fun _ _ _ => rfl⟩
  | cons first rest ihf ihr =>
    obtain ⟨hff, hfr⟩ := List.forall_mem_append.mp hfaithful
    cases hfirst : first.isErased erased with
    | true =>
      obtain ⟨keyword, types, rfl, -⟩ := Phrase.eq_cast_of_isErased erased hfirst
      rw [Phrase.erase, if_pos hfirst]
      exact Shadows.cast_cons (ihr hfr depth)
    | false =>
      rw [Phrase.erase, if_neg (by rw [hfirst]; exact Bool.false_ne_true)]
      refine (ihf hff depth).bind ?_
      rintro _ _ _ _ ⟨F, G, rfl, rfl, rfl, rfl, hlines⟩
      refine (ihr hfr depth).bind ?_
      rintro _ _ _ _ ⟨F', G', rfl, rfl, rfl, rfl, hlines'⟩
      refine .pure ?_
      refine ⟨F ++ F', G ++ G', (F.tops_append F').symm, (G.tops_append G').symm, ?_, ?_, ?_⟩
      · rw [F.contents_append, Contents.append_empty]
      · rw [G.contents_append, Contents.append_empty]
      · intro store store' hlabels
        rw [Forest.lines_append, Forest.lines_append, hlines store store' hlabels,
          hlines' store store' hlabels]
  | enclosed bracket opener inside closer ih =>
    simp only [Phrase.tokens, List.forall_mem_cons, List.forall_mem_append] at hfaithful
    refine Shadows.checkDepth_bind ((ih hfaithful.2.1 (depth + 1)).bind ?_)
    rintro _ _ _ _ ⟨F, G, rfl, rfl, rfl, rfl, hlines⟩
    refine (Shadows.addBlock (by rfl)).mono ?_
    rintro id id' _ _ ⟨rfl, rfl⟩
    exact ⟨⟨id, bracket, opener.1.location⟩, ⟨id', bracket, opener.1.location⟩, F, G, rfl, rfl, rfl,
      rfl, hlines⟩
  | stop => exact .pure (.inl ⟨rfl, rfl, rfl, rfl⟩)
  | otherwise keyword body ih =>
    obtain ⟨-, hfb⟩ := List.forall_mem_cons.mp hfaithful
    refine Shadows.takeIndex.bind ?_
    rintro _ index _ _ ⟨rfl, rfl, rfl⟩
    refine (ih hfb depth).bind ?_
    rintro _ _ _ _ ⟨o, o', F, G, rfl, rfl, rfl, rfl, hlines⟩
    refine (Shadows.addBlock (by rfl)).bind ?_
    rintro id id' _ _ ⟨rfl, rfl⟩
    refine .pure (.inr ?_)
    refine ⟨⟨id, keyword.1.location, index⟩, ⟨id', keyword.1.location, index⟩, o, o', F, G, rfl, rfl,
      rfl, ?_, ?_, hlines⟩
    · simp [Contents.append_assoc]
    · simp [Contents.append_assoc]
  | elseIf keyword condition body chain ihc ihb ihch =>
    simp only [Phrase.tokens, List.forall_mem_cons, List.forall_mem_append] at hfaithful
    obtain ⟨-, hfc, hfb, hfch⟩ := hfaithful
    refine Shadows.takeIndex.bind ?_
    rintro _ index _ _ ⟨rfl, rfl, rfl⟩
    refine Shadows.takeIndex.bind ?_
    rintro _ inner _ _ ⟨rfl, rfl, rfl⟩
    refine (Shadows.addBranch (ihc hfc (depth + 1)) (ihb hfb (depth + 1))
      (ihch hfch (depth + 1))).bind ?_
    rintro _ _ c d ⟨F, G, rfl, rfl, hF, hG, hlines⟩
    refine (Shadows.addBlock (by rfl)).bind ?_
    rintro bid bid' _ _ ⟨rfl, rfl⟩
    refine (Shadows.addBlock (by rfl)).bind ?_
    rintro id id' _ _ ⟨rfl, rfl⟩
    refine .pure (.inr ?_)
    refine ⟨⟨id, keyword.1.location, index⟩, ⟨id', keyword.1.location, index⟩,
      ⟨bid, .brace, keyword.1.location⟩, ⟨bid', .brace, keyword.1.location⟩, F, G, rfl, rfl, rfl,
      ?_, ?_, hlines⟩
    · simp [hF, Contents.append_assoc]
    · simp [hG, Contents.append_assoc]

end Phrases

/-! ## Definitions -/

/-- **The chunks have the same code**, whatever the handles of bodies are. -/
def Chunk.SameLines (chunk chunk' : Chunk) : Prop :=
  ∀ options store store' d d', SameLabels store store' → Definition.detached d' = d.detached →
    chunk'.lines options store' d' = chunk.lines options store d

theorem Chunk.sameLines {chunk chunk' : Chunk}
    (hown : ∀ store store' d d', SameLabels store store' → Definition.detached d' = d.detached →
      chunk'.ownLines store' d' = chunk.ownLines store d) : chunk.SameLines chunk' := by
  intro options store store' d d' hlabels hd
  obtain ⟨-, -, hplace, hused, -, -⟩ := Definition.mk.inj hd
  have hsection : d'.sectionName = d.sectionName := congrArg Token.nameText hplace
  rw [Chunk.lines, Chunk.lines, hused, hsection, hown store store' d d' hlabels hd]

theorem Definition.label_eq_of_detached {d d' : Definition} (h : d'.detached = d.detached) :
    d'.label = d.label := by
  rw [← d'.label_detached, h, d.label_detached]

/-- Two functions are defined, or the same region or constant. -/
theorem DefinitionBody.eq_or_function {body body' : DefinitionBody}
    (h : body'.detached = body.detached) :
    (∃ f f' : Function, body = .function f ∧ body' = .function f' ∧ f'.isEntry = f.isEntry) ∨
      body' = body ∧ ∀ f, body ≠ .function f := by
  cases body with
  | function f =>
    cases body' with
    | function f' =>
      have hsame : { f' with body := ⟨0, 0⟩ } = { f with body := (⟨0, 0⟩ : BlockId) } :=
        DefinitionBody.function.inj h
      exact .inl ⟨f, f', rfl, rfl, (Function.mk.inj hsame).2.2.2⟩
    | memory | string => cases h
  | memory capacity =>
    cases body' with
    | memory => exact .inr ⟨h, fun _ hf => by cases hf⟩
    | function | string => cases h
  | string literal =>
    cases body' with
    | string => exact .inr ⟨h, fun _ hf => by cases hf⟩
    | function | memory => cases h

/-- A definition without blocks. -/
theorem Chunk.sameLines_data (definition definition' : Definition) :
    Chunk.SameLines ⟨definition, none⟩ ⟨definition', none⟩ := by
  refine Chunk.sameLines fun store store' d d' _ hd => ?_
  have hlabel := Definition.label_eq_of_detached hd
  rcases DefinitionBody.eq_or_function (Definition.mk.inj hd).2.2.2.2.2 with
    ⟨f, f', hb, hb', -⟩ | ⟨hb, -⟩
  · simp only [ownLines, hb, hb']
  · simp only [ownLines, hb, hlabel]
    cases d.body <;> rfl

theorem Chunk.sameLines_function (definition definition' : Definition) (head head' : ScopeHead)
    {F G : Forest} (h : F.SameLines G) :
    Chunk.SameLines ⟨definition, some (head, F)⟩ ⟨definition', some (head', G)⟩ := by
  refine Chunk.sameLines fun store store' d d' hlabels hd => ?_
  have hlabel := Definition.label_eq_of_detached hd
  have hlines := h store store' hlabels
  rcases DefinitionBody.eq_or_function (Definition.mk.inj hd).2.2.2.2.2 with
    ⟨f, f', hb, hb', hentry⟩ | ⟨hb, hdata⟩
  · simp only [ownLines, hb, hb', prologue, hlabel, hentry, hlines]
  · simp only [ownLines, hb, hlabel]
    cases hbody : d.body with
    | function f => exact absurd hbody (hdata f)
    | memory | string => rfl

/-- A function with another handle of its body. -/
theorem Definition.detached_function (location : Location) (ident place : Token) (used : Bool)
    (requires returns : List Token) (isEntry : Bool) (body body' : BlockId) :
    Definition.detached ⟨location, ident, place, used, 0,
        .function ⟨requires, returns, body', isEntry⟩⟩ =
      Definition.detached ⟨location, ident, place, used, 0,
        .function ⟨requires, returns, body, isEntry⟩⟩ := rfl

section Definitions

variable (erased : Token → Bool) {options : ParseOptions}

theorem DefinitionPhrase.header_erase (d : DefinitionPhrase) :
    (d.erase erased).header = d.header := by
  obtain ⟨place, subject⟩ := d
  cases subject <;> rfl

/-- **A definition without casts is built next to the definition.** -/
theorem DefinitionPhrase.build_erase {d : DefinitionPhrase}
    (hfaithful : ∀ t ∈ d.tokens, t.Faithful) {w v w' : Workspace} (hsheds : w.Sheds v) {u : Unit}
    (h : d.build options w = .ok u w') :
    ∃ v' chunk chunk', (d.erase erased).build options v = .ok () v' ∧ w'.Sheds v' ∧
      AddsChunk w w' chunk ∧ AddsChunk v v' chunk' ∧ chunk.SameLines chunk' := by
  have hheader := d.header_erase erased
  obtain ⟨place, subject⟩ := d
  simp only [DefinitionPhrase.build, bind_eq_ok] at h ⊢
  rw [hheader]
  obtain ⟨_, w₁, h₁, h⟩ := h
  obtain ⟨hfresh, rfl⟩ := checkName_eq_ok.mp h₁
  have hfresh' : v.symbols.lookup subject.name.text = none := by rw [hsheds.symbols, hfresh]
  have hsubject : ∀ t ∈ subject.tokens, t.Faithful :=
    fun t ht => hfaithful t (List.mem_append_right _ ht)
  cases subject with
  | memory m =>
    have hname : m.name.1.IsName := ⟨m.name.2, hsubject _ (.tail _ (.head _))⟩
    have hfits : IsSize m.capacity.1 ∧ m.capacity.1.Faithful :=
      ⟨m.capacity.2, hsubject _ (.tail _ (.tail _ (.head _)))⟩
    obtain ⟨v', h', hsheds'⟩ := hsheds.define rfl h
    exact ⟨v', _, _, ⟨(), v, checkName_eq_ok.mpr ⟨hfresh', rfl⟩, h'⟩, hsheds',
      .data hname hfresh h hfits, .data hname hfresh' h' hfits, Chunk.sameLines_data _ _⟩
  | string s =>
    have hname : s.name.1.IsName := ⟨s.name.2, hsubject _ (.tail _ (.head _))⟩
    obtain ⟨v', h', hsheds'⟩ := hsheds.define rfl h
    exact ⟨v', _, _, ⟨(), v, checkName_eq_ok.mpr ⟨hfresh', rfl⟩, h'⟩, hsheds',
      .data hname hfresh h trivial, .data hname hfresh' h' trivial, Chunk.sameLines_data _ _⟩
  | function f =>
    have hname : f.name.1.IsName := ⟨f.name.2, hsubject _ (.tail _ (.head _))⟩
    have hinside : ∀ t ∈ f.inside.tokens, t.Faithful :=
      fun t ht => hsubject t (by simp [SubjectPhrase.tokens, ht])
    simp only [SubjectPhrase.build, beginFunction, bind_eq_ok] at h
    obtain ⟨_, w₁, ⟨body, w₂, h₂, _, w₃, h₃, _, w₄, h₄, h₅⟩, ids, w₆, h₆, h⟩ := h
    obtain ⟨hdepth, rfl⟩ := checkDepth_eq_ok.mp h₄
    obtain ⟨rfl, rfl⟩ := pure_eq_ok.mp h₅
    rw [fillScope_eq] at h
    cases h
    obtain ⟨body', v₂, h₂', hs₂⟩ := hsheds.addBlock rfl h₂
    obtain ⟨v₃, h₃', hs₃⟩ :=
      hs₂.define (Definition.detached_function _ _ _ _ _ _ _ body body') h₃
    obtain ⟨_, v₆, _, _, h₆', hs₆, ⟨F, G, rfl, rfl, rfl, rfl, hlines⟩, hF, hG⟩ :=
      f.inside.shadows erased hinside 1 _ _ _ _ hs₃ h₆
    refine ⟨_, _, _, ⟨(), v, checkName_eq_ok.mpr ⟨hfresh', rfl⟩, ?_⟩,
      hs₆.modifyBlock (Block.kept?_filled F.tops) (Block.kept?_filled G.tops) body body',
      .function hname hfresh h₂ rfl rfl h₃ hF, .function hname hfresh' h₂' rfl rfl h₃' hG,
      Chunk.sameLines_function _ _ _ _ hlines⟩
    simp only [DefinitionPhrase.erase, SubjectPhrase.erase, SubjectPhrase.build, beginFunction,
      bind_eq_ok]
    exact ⟨_, _, ⟨_, v₂, h₂', (), v₃, h₃', (), v₃, checkDepth_eq_ok.mpr ⟨hdepth, rfl⟩, rfl⟩, _, v₆,
      h₆', fillScope_eq _ _ _⟩

/-- **Definitions in a row without casts are built next to the definitions.** -/
theorem build_erase_definitions {ds : List DefinitionPhrase}
    (hfaithful : ∀ t ∈ ds.flatMap DefinitionPhrase.tokens, t.Faithful) {w v w' : Workspace}
    (hsheds : w.Sheds v) {u : Unit} (h : ds.forM (DefinitionPhrase.build options) w = .ok u w') :
    ∃ v' chunks chunks',
      (ds.map (DefinitionPhrase.erase erased)).forM (DefinitionPhrase.build options) v =
        .ok () v' ∧ w'.Sheds v' ∧ AddsChunks w chunks w' ∧ AddsChunks v chunks' v' ∧
      List.Forall₂ Chunk.SameLines chunks chunks' := by
  induction ds generalizing w v with
  | nil =>
    obtain ⟨-, rfl⟩ := pure_eq_ok.mp h
    exact ⟨v, [], [], rfl, hsheds, .nil w, .nil v, .nil⟩
  | cons d ds ih =>
    obtain ⟨_, w₁, h₁, h⟩ := bind_eq_ok.mp h
    obtain ⟨hd, hds⟩ := List.forall_mem_append.mp hfaithful
    obtain ⟨v₁, chunk, chunk', h₁', hsheds₁, hchunk, hchunk', hlines⟩ :=
      DefinitionPhrase.build_erase erased hd hsheds h₁
    obtain ⟨v', chunks, chunks', h', hsheds', hchunks, hchunks', hmore⟩ := ih hds hsheds₁ h
    exact ⟨v', chunk :: chunks, chunk' :: chunks', bind_eq_ok.mpr ⟨(), v₁, h₁', h'⟩, hsheds',
      .cons hchunk hchunks, .cons hchunk' hchunks', .cons hlines hmore⟩

end Definitions

/-! ## Units -/

/-- **Chunks with the same code make units with the same code.** -/
theorem unitLines_eq {chunks chunks' : List Chunk} (h : List.Forall₂ Chunk.SameLines chunks chunks')
    {w v : Workspace} (hsheds : w.Sheds v) (options : EmitOptions) (unit : List DefId) :
    unitLines options v.store unit chunks' = unitLines options w.store unit chunks := by
  have hlines : definitionLines options v.store unit chunks' =
      definitionLines options w.store unit chunks := by
    induction h generalizing unit with
    | nil => simp [definitionLines]
    | @cons chunk chunk' chunks chunks' hchunk _ ih =>
      cases unit with
      | nil => rfl
      | cons id unit =>
        have hfirst : (v.store.def? id).elim [] (fun d => chunk'.lines options v.store d) =
            (w.store.def? id).elim [] fun d => chunk.lines options w.store d := by
          have hdef := hsheds.def? id
          cases hd : w.store.def? id with
          | none =>
            rw [hd, Option.map_none, Option.map_eq_none_iff] at hdef
            rw [hdef]
            rfl
          | some d =>
            rw [hd, Option.map_some, Option.map_eq_some_iff] at hdef
            obtain ⟨d', hd', hsame⟩ := hdef
            rw [hd']
            exact hchunk options _ _ d d' hsheds.sameLabels hsame
        simp only [definitionLines, List.zip_cons_cons, List.flatMap_cons, hfirst] at ih ⊢
        rw [ih unit]
  rw [unitLines, unitLines, hlines]

end StackCompiler
