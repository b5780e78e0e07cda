import StackCompiler.Proofs.Tree.Growth

/-!
# Steps without casts

A step of parsing is taken twice, from a workspace and from the same workspace without some casts.
There are fewer nodes then, so there is room, and the same names and numbers are found. A handle is
only passed on.

* `Workspace.Sheds`: a workspace without some casts.
* `Shadows`: steps that do the same without casts.
* **`Shadows.bind`**: steps in a row.
-/

namespace StackCompiler

/-! ## What is left of a workspace -/

/-- **A block without the handles of others**; nothing for a cast. -/
def Block.kept? : Block → Option Block
  | .cast .. => none
  | .call location _ => some (.call location ⟨0, 0⟩)
  | .scope bracket location _ => some (.scope bracket location [])
  | .branch location _ _ _ index => some (.branch location ⟨0, 0⟩ ⟨0, 0⟩ none index)
  | .alternative location _ index => some (.alternative location ⟨0, 0⟩ index)
  | .loop location _ _ index => some (.loop location ⟨0, 0⟩ ⟨0, 0⟩ index)
  | other => some other

def DefinitionBody.detached : DefinitionBody → DefinitionBody
  | .function f => .function { f with body := ⟨0, 0⟩ }
  | other => other

/-- **A definition without the handle of its body.** -/
def Definition.detached (d : Definition) : Definition := { d with body := d.body.detached }

theorem Block.kept?_joined (alternative : BlockId) (block : Block) :
    (joined alternative block).kept? = block.kept? := by
  cases block <;> rfl

theorem Block.kept?_filled (children : List BlockId) (block : Block) :
    (filled children block).kept? = block.kept? := by
  cases block <;> rfl

/-- What a function of definitions gives, if it does not look at handles of bodies. -/
theorem map_eq_of_detached {α : Type} {f : Definition → α} (hf : ∀ d, f d.detached = f d)
    {d d' : Option Definition} (h : d'.map Definition.detached = d.map Definition.detached) :
    d'.map f = d.map f := by
  have hsame := congrArg (Option.map f) h
  simpa only [Option.map_map, Function.comp_def, hf] using hsame

theorem Definition.isFunction_detached (d : Definition) : d.detached.isFunction = d.isFunction := by
  obtain ⟨_, _, _, _, _, body⟩ := d
  cases body <;> rfl

/-- **The second workspace is the first one without some casts.** -/
structure Workspace.Sheds (w v : Workspace) : Prop where
  symbols : v.symbols = w.symbols
  nextIndex : v.nextIndex = w.nextIndex
  maxNodes : v.store.maxNodes = w.store.maxNodes
  generation : v.store.generation = w.store.generation
  blocks : v.store.blocks.toList.filterMap Block.kept? =
    w.store.blocks.toList.filterMap Block.kept?
  size_le : v.store.blocks.size ≤ w.store.blocks.size
  defs : v.store.defs.map Definition.detached = w.store.defs.map Definition.detached

/-- A change that leaves what is kept of a block. -/
theorem filterMap_kept_modify {f : Block → Block} (hf : ∀ block, (f block).kept? = block.kept?)
    (blocks : Array Block) (i : Nat) :
    (blocks.modify i f).toList.filterMap Block.kept? = blocks.toList.filterMap Block.kept? := by
  have hmap : (blocks.modify i f).map Block.kept? = blocks.map Block.kept? := by
    refine Array.ext_getElem? fun j => ?_
    simp only [Array.getElem?_map, Array.getElem?_modify]
    by_cases hij : i = j
    · rw [if_pos hij, Option.map_map]
      exact congrArg (Option.map · blocks[j]?) (funext hf)
    · rw [if_neg hij]
  have hlist := congrArg (fun xs => xs.toList.filterMap id) hmap
  simpa [List.filterMap_map] using hlist

theorem Store.kept_modifyBlock (store : Store) {f : Block → Block}
    (hf : ∀ block, (f block).kept? = block.kept?) (id : BlockId) :
    (store.modifyBlock id f).blocks.toList.filterMap Block.kept? =
      store.blocks.toList.filterMap Block.kept? := by
  rw [modifyBlock]
  split_ifs
  · exact filterMap_kept_modify hf store.blocks id.index
  · rfl

namespace Workspace.Sheds

variable {w v : Workspace}

theorem refl (w : Workspace) : w.Sheds w := ⟨rfl, rfl, rfl, rfl, rfl, Nat.le_refl _, rfl⟩

theorem size_defs (h : w.Sheds v) : v.store.defs.size = w.store.defs.size := by
  simpa using congrArg Array.size h.defs

/-- There is room where there was room with the casts. -/
theorem room (h : w.Sheds v) (hroom : w.store.size < w.store.maxNodes) :
    v.store.size < v.store.maxNodes := by
  have hdefs := h.size_defs
  have hblocks := h.size_le
  rw [h.maxNodes]
  simp only [Store.size] at hroom ⊢
  omega

theorem def? (h : w.Sheds v) (id : DefId) :
    (v.store.def? id).map Definition.detached = (w.store.def? id).map Definition.detached := by
  rw [Store.def?, Store.def?, h.generation]
  split_ifs
  · simpa using congrArg (·[id.index]?) h.defs
  · rfl

theorem withBlock (h : w.Sheds v) {block block' : Block} (hkept : block'.kept? = block.kept?) :
    Sheds { w with store := w.store.withBlock block }
      { v with store := v.store.withBlock block' } := by
  refine ⟨h.symbols, h.nextIndex, h.maxNodes, h.generation, ?_, ?_, h.defs⟩
  · simp only [Store.withBlock, Array.toList_push, List.filterMap_append, h.blocks]
    exact congrArg _ (by simp only [List.filterMap_cons, hkept])
  · simpa [Store.withBlock] using h.size_le

/-- A cast is added to the first workspace only. -/
theorem withCast (h : w.Sheds v) (location : Location) (types : List Token) :
    Sheds { w with store := w.store.withBlock (.cast location types) } v := by
  refine ⟨h.symbols, h.nextIndex, h.maxNodes, h.generation, ?_, ?_, h.defs⟩
  · simp only [Store.withBlock, Array.toList_push, List.filterMap_append, h.blocks]
    exact (List.append_nil _).symm
  · simpa [Store.withBlock] using Nat.le_succ_of_le h.size_le

theorem modifyBlock (h : w.Sheds v) {f f' : Block → Block}
    (hf : ∀ block, (f block).kept? = block.kept?) (hf' : ∀ block, (f' block).kept? = block.kept?)
    (id id' : BlockId) :
    Sheds { w with store := w.store.modifyBlock id f }
      { v with store := v.store.modifyBlock id' f' } := by
  have hdefs (store : Store) (id : BlockId) (f : Block → Block) :
      (store.modifyBlock id f).defs = store.defs := by
    rw [Store.modifyBlock]
    split_ifs <;> rfl
  refine ⟨h.symbols, h.nextIndex, ?_, ?_, ?_, ?_, ?_⟩
  · simpa only [Store.maxNodes_modifyBlock] using h.maxNodes
  · simpa only [Store.generation_modifyBlock] using h.generation
  · simpa only [Store.kept_modifyBlock _ hf, Store.kept_modifyBlock _ hf'] using h.blocks
  · simpa only [Store.size_blocks_modifyBlock] using h.size_le
  · simpa only [hdefs] using h.defs

theorem markUsed (h : w.Sheds v) (target : DefId) :
    (w.markUsed target).Sheds (v.markUsed target) := by
  have hmarked (d : Definition) : d.detached.marked = d.marked.detached := rfl
  have hdefs (store : Store) :
      (store.modifyDef target Definition.marked).defs.map Definition.detached =
        if target.generation = store.generation then
          (store.defs.map Definition.detached).modify target.index Definition.marked
        else store.defs.map Definition.detached := by
    rw [Store.modifyDef]
    split_ifs
    · exact map_modify hmarked store.defs target.index
    · rfl
  change Sheds { w with store := w.store.modifyDef target Definition.marked }
    { v with store := v.store.modifyDef target Definition.marked }
  refine ⟨h.symbols, h.nextIndex, ?_, ?_, ?_, ?_, ?_⟩
  · simpa only [Store.maxNodes_modifyDef] using h.maxNodes
  · simpa only [Store.generation_modifyDef] using h.generation
  · simpa only [Store.blocks_modifyDef] using h.blocks
  · simpa only [Store.blocks_modifyDef] using h.size_le
  · rw [hdefs, hdefs, h.defs, h.generation]

/-- A definition is added to both workspaces. -/
theorem withDef (h : w.Sheds v) {d d' : Definition} (hd : d'.detached = d.detached) :
    Sheds ⟨w.store.withDef { d with index := w.symbols.length },
        w.symbols ++ [(d.ident.text, w.store.nextDef)], w.nextIndex⟩
      ⟨v.store.withDef { d' with index := v.symbols.length },
        v.symbols ++ [(d'.ident.text, v.store.nextDef)], v.nextIndex⟩ := by
  have hident : d'.ident = d.ident := (Definition.mk.inj hd).2.1
  have hnext : v.store.nextDef = w.store.nextDef := by
    rw [Store.nextDef, Store.nextDef, h.size_defs, h.generation]
  have hindex : Definition.detached { d' with index := w.symbols.length } =
      Definition.detached { d with index := w.symbols.length } := by
    obtain ⟨hlocation, -, hplace, hused, -, hbody⟩ := Definition.mk.inj hd
    simp only [Definition.detached, hlocation, hident, hplace, hused, hbody]
  refine ⟨?_, h.nextIndex, h.maxNodes, h.generation, h.blocks, h.size_le, ?_⟩
  · rw [h.symbols, hident, hnext]
  · simp only [Store.withDef, Array.map_push, h.defs, h.symbols, hindex]

theorem addBlock (h : w.Sheds v) {block block' : Block} (hkept : block'.kept? = block.kept?)
    {id : BlockId} {w' : Workspace} (hrun : addBlock block w = .ok id w') :
    ∃ id' v', StackCompiler.addBlock block' v = .ok id' v' ∧ w'.Sheds v' := by
  obtain ⟨hroom, rfl, rfl⟩ := addBlock_eq_ok.mp hrun
  exact ⟨_, _, addBlock_eq_ok.mpr ⟨h.room hroom, rfl, rfl⟩, h.withBlock hkept⟩

theorem define (h : w.Sheds v) {d d' : Definition} (hd : d'.detached = d.detached) {u : Unit}
    {w' : Workspace} (hrun : define d w = .ok u w') :
    ∃ v', StackCompiler.define d' v = .ok u v' ∧ w'.Sheds v' := by
  obtain ⟨hroom, rfl⟩ := define_eq_ok.mp hrun
  exact ⟨_, define_eq_ok.mpr ⟨h.room hroom, rfl⟩, h.withDef hd⟩

theorem addReference (h : w.Sheds v) {name : Token} {id : BlockId} {w' : Workspace}
    (hrun : addReference name w = .ok id w') :
    ∃ id' v', StackCompiler.addReference name v = .ok id' v' ∧ w'.Sheds v' := by
  obtain ⟨target, hlookup, hadd⟩ := addReference_eq_ok.mp hrun
  obtain ⟨id', v', hadd', h'⟩ := (h.markUsed target).addBlock rfl hadd
  exact ⟨id', v', addReference_eq_ok.mpr ⟨target, by rw [h.symbols, hlookup], hadd'⟩, h'⟩

/-- A name stands for the same definition. -/
theorem lookup_eq (h : w.Sheds v) {name : String} {target target' : DefId}
    (hlookup : w.symbols.lookup name = some target)
    (hlookup' : v.symbols.lookup name = some target') : target' = target := by
  rw [h.symbols, hlookup] at hlookup'
  exact (Option.some.inj hlookup').symm

theorem addCall (h : w.Sheds v) {name keyword : Token} {id : BlockId} {w' : Workspace}
    (hrun : addCall name keyword w = .ok id w') :
    ∃ id' v', StackCompiler.addCall name keyword v = .ok id' v' ∧ w'.Sheds v' := by
  obtain ⟨callee, w₁, hname, hcall⟩ := bind_eq_ok.mp hrun
  rw [get_bind] at hcall
  split_ifs at hcall with hnames
  · obtain ⟨callee', v₁, hname', h₁⟩ := h.addReference hname
    obtain ⟨target, hlookup, hadds⟩ := Adds.addReference hname
    obtain ⟨target', hlookup', hadds'⟩ := Adds.addReference hname'
    obtain rfl : target' = target := h.lookup_eq hlookup hlookup'
    have hblock := Contents.stored_node.mp hadds.stored
    have hblock' := Contents.stored_node.mp hadds'.stored
    have hnames' : namesFunction v₁.store callee' = true := by
      rw [namesFunction, hblock] at hnames
      rw [namesFunction, hblock']
      dsimp only at hnames ⊢
      rwa [map_eq_of_detached Definition.isFunction_detached (h₁.def? target')]
    have hkept : Block.kept? (.call keyword.location callee') =
        Block.kept? (.call keyword.location callee) := rfl
    obtain ⟨id', v', hcall', h'⟩ := h₁.addBlock hkept hcall
    refine ⟨id', v', bind_eq_ok.mpr ⟨callee', v₁, hname', ?_⟩, h'⟩
    rw [get_bind, if_pos hnames']
    exact hcall'
  · exact absurd hcall failAt_ne_ok

end Workspace.Sheds

/-! ## Steps -/

/-- **The second step does what the first one does without some casts**: next to a workspace where the
first one succeeds, the second one does so too. What they return and add is related. -/
def Shadows {α β : Type} (R : α → β → Contents → Contents → Prop) (m : ParseM α) (m' : ParseM β) :
    Prop :=
  ∀ w v a w', w.Sheds v → m w = .ok a w' →
    ∃ b v' c d, m' v = .ok b v' ∧ w'.Sheds v' ∧ R a b c d ∧ Adds w w' c ∧ Adds v v' d

namespace Shadows

variable {α β γ δ : Type} {R : α → β → Contents → Contents → Prop}
  {Q : γ → δ → Contents → Contents → Prop}

theorem bind {m : ParseM α} {m' : ParseM β} {f : α → ParseM γ} {f' : β → ParseM δ}
    (hm : Shadows R m m') (hf : ∀ a b c d, R a b c d →
      Shadows (fun a' b' c' d' => Q a' b' (c ++ c') (d ++ d')) (f a) (f' b)) :
    Shadows Q (m >>= f) (m' >>= f') := by
  intro w v a' w'' hsheds h
  obtain ⟨a, w', hrun, hmore⟩ := bind_eq_ok.mp h
  obtain ⟨b, v', c, d, hrun', hsheds', hR, hc, hd⟩ := hm w v a w' hsheds hrun
  obtain ⟨b', v'', c', d', hmore', hsheds'', hQ, hc', hd'⟩ :=
    hf a b c d hR w' v' a' w'' hsheds' hmore
  exact ⟨b', v'', c ++ c', d ++ d', bind_eq_ok.mpr ⟨b, v', hrun', hmore'⟩, hsheds'', hQ,
    hc.append hc', hd.append hd'⟩

theorem pure {a : γ} {b : δ} (h : Q a b .empty .empty) :
    Shadows Q (Pure.pure a) (Pure.pure b) := by
  intro w v a' w' hsheds hrun
  obtain ⟨rfl, rfl⟩ := pure_eq_ok.mp hrun
  exact ⟨b, v, .empty, .empty, rfl, hsheds, h, .refl w, .refl v⟩

theorem mono {R' : α → β → Contents → Contents → Prop} {m : ParseM α} {m' : ParseM β}
    (hm : Shadows R m m') (h : ∀ a b c d, R a b c d → R' a b c d) : Shadows R' m m' := by
  intro w v a w' hsheds hrun
  obtain ⟨b, v', c, d, hrun', hsheds', hR, hadds⟩ := hm w v a w' hsheds hrun
  exact ⟨b, v', c, d, hrun', hsheds', h a b c d hR, hadds⟩

theorem takeIndex :
    Shadows (fun i j c d => j = i ∧ c = .number i ∧ d = .number i) takeIndex takeIndex := by
  intro w v i w' hsheds hrun
  have hadds := Adds.takeIndex hrun
  rw [takeIndex_eq] at hrun
  cases hrun
  refine ⟨v.nextIndex, _, _, .number w.nextIndex, takeIndex_eq v, ?_,
    ⟨hsheds.nextIndex, rfl, rfl⟩, hadds, ?_⟩
  · exact { hsheds with nextIndex := congrArg (· + 1) hsheds.nextIndex }
  · rw [← hsheds.nextIndex]
    exact Adds.takeIndex (takeIndex_eq v)

theorem addBlock {block block' : Block} (h : block'.kept? = block.kept?) :
    Shadows (fun id id' c d => c = .node id block ∧ d = .node id' block') (addBlock block)
      (addBlock block') := by
  intro w v id w' hsheds hrun
  obtain ⟨id', v', hrun', hsheds'⟩ := hsheds.addBlock h hrun
  exact ⟨id', v', _, _, hrun', hsheds', ⟨rfl, rfl⟩, Adds.addBlock hrun, Adds.addBlock hrun'⟩

theorem checkDepth_bind {options : ParseOptions} {opener : Token} {depth : Nat} {m : ParseM γ}
    {m' : ParseM δ} (h : Shadows Q m m') :
    Shadows Q (checkDepth options opener depth >>= fun _ => m)
      (checkDepth options opener depth >>= fun _ => m') := by
  intro w v a w' hsheds hrun
  obtain ⟨u, w₁, hcheck, hmore⟩ := bind_eq_ok.mp hrun
  obtain ⟨hdepth, rfl⟩ := checkDepth_eq_ok.mp hcheck
  obtain ⟨b, v', c, d, hrun', hrest⟩ := h w v a w' hsheds hmore
  exact ⟨b, v', c, d, bind_eq_ok.mpr ⟨u, v, checkDepth_eq_ok.mpr ⟨hdepth, rfl⟩, hrun'⟩, hrest⟩

end Shadows

end StackCompiler
