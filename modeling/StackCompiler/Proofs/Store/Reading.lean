import StackCompiler.Proofs.Lowering.Unit
import StackCompiler.Proofs.Store.Renaming
import StackCompiler.Proofs.Tree.Ownership
import StackCompiler.Proofs.Tree.Usage
import StackCompiler.Syntax.Outline

/-!
# Reading a unit

The outline and the code of a unit are read off its definitions and the blocks below them, and they
show no handle. So they are the same in every store that holds these nodes, under whatever handles.

* `Store.Holds`: a store holds a block with everything below it.
* `Store.HoldsUnit`, **`UnitTree.holdsUnit`**: the same for a unit.
* `Carries`: a store has the nodes of another one under renamed handles.
* **`Carries.outline_eq`**, **`Carries.emitUnit_eq`**: outlines and code.
-/

namespace StackCompiler

/-! ## What a store holds -/

/-- The definition that a block names. -/
def Block.target? : Block → Option DefId
  | .reference _ target => some target
  | _ => none

/-- The alternative that a block is joined to. -/
def Block.next? : Block → Option BlockId
  | .branch _ _ _ next _ => next
  | _ => none

/-- **What a block refers to beside the blocks below it** is there. -/
structure Store.Links (store : Store) (block : Block) : Prop where
  target : ∀ target ∈ block.target?, ∃ d, store.def? target = some d
  next : ∀ next ∈ block.next?, ∃ alternative, store.block? next = some alternative

/-- **The store holds a block with everything below it**, within a number of levels. -/
inductive Store.Holds (store : Store) : Nat → BlockId → Prop where
  | node {n : Nat} {id : BlockId} {block : Block} (hblock : store.block? id = some block)
      (hlinks : store.Links block) (hbelow : ∀ child ∈ block.children, store.Holds n child) :
      store.Holds (n + 1) id

/-- **The store holds the definitions of a unit** with everything below them. -/
def Store.HoldsUnit (store : Store) (unit : List DefId) : Prop :=
  ∀ id ∈ unit, ∃ d, store.def? id = some d ∧
    ∀ body ∈ d.body?, store.Holds store.blocks.size body

section Holds

variable {store : Store}

theorem Store.Holds.mono {n m : Nat} {id : BlockId} (h : store.Holds n id) (hle : n ≤ m) :
    store.Holds m id := by
  induction h generalizing m with
  | node hblock hlinks _ ih =>
    obtain ⟨m, rfl⟩ : ∃ k, m = k + 1 := Nat.exists_eq_add_one.mpr (by omega)
    exact .node hblock hlinks fun child hchild => ih child hchild (Nat.le_of_succ_le_succ hle)

/-- A block without links. -/
theorem Store.links_of_none {block : Block} (htarget : block.target? = none)
    (hnext : block.next? = none) : store.Links block where
  target target h := by simp [htarget] at h
  next next h := by simp [hnext] at h

theorem Leaf.holds {id : BlockId} {l : Leaf} (hstored : (Contents.ofLeaf id l).Stored store)
    (htarget : ∀ target ∈ l.target?, ∃ d, store.def? target = some d) :
    store.Holds (l.nodes id).length id := by
  have hreference {x : BlockId} {token : Token} {target : DefId} {n : Nat}
      (hx : store.block? x = some (.reference token target))
      (htarget : ∃ d, store.def? target = some d) : store.Holds (n + 1) x :=
    .node hx ⟨fun _ h => Option.some.inj h ▸ htarget, fun _ h => by cases h⟩
      fun _ h => absurd h List.not_mem_nil
  cases l with
  | reference token target => exact hreference (hstored _ (.head _)) (htarget target rfl)
  | call location callee token target =>
    refine .node (hstored _ (.tail _ (.head _))) (Store.links_of_none rfl rfl) ?_
    exact List.forall_mem_singleton.mpr (hreference (hstored _ (.head _)) (htarget target rfl))
  | expression token | cast location types | assembly token =>
    exact .node (hstored _ (.head _)) (Store.links_of_none rfl rfl)
      fun _ h => absurd h List.not_mem_nil

theorem ScopeHead.holds {head : ScopeHead} {tops : List BlockId} {n : Nat}
    (hnode : store.block? head.id = some (head.block tops))
    (hinside : ∀ top ∈ tops, store.Holds n top) : store.Holds (n + 1) head.id :=
  .node hnode (Store.links_of_none rfl rfl) hinside

/-- A branch or loop, given its condition and body. -/
theorem Junction.holds {j : Junction} {c b : BlockId} {block : Block} {n m : Nat}
    (hj : store.block? j.id = some block) (hlinks : store.Links block)
    (hparts : block.children = [c, b]) (hc : store.Holds (n + 1) c)
    (hb : store.Holds (m + 1) b) : store.Holds (n + m + 2) j.id := by
  refine .node hj hlinks fun child hchild => ?_
  rw [hparts] at hchild
  rcases List.mem_pair.mp hchild with rfl | rfl
  · exact hc.mono (by omega)
  · exact hb.mono (by omega)

/-- **A store that has the blocks of a forest holds its row**, if names in it resolve. -/
theorem Forest.holds {F : Forest} (hstored : F.contents.Stored store)
    (htargets : ∀ l ∈ F.contents.leaves, ∀ target ∈ l.target?, ∃ d, store.def? target = some d) :
    ∀ top ∈ F.tops, store.Holds F.contents.nodes.length top := by
  induction F with
  | nil => exact fun _ h => absurd h List.not_mem_nil
  | leaf id l rest ih =>
    simp only [contents, Contents.stored_append, Contents.leaves_append,
      List.forall_mem_append] at hstored htargets
    have hleaf := Leaf.holds hstored.1 (htargets.1 l (.head _))
    have hrest := ih hstored.2 htargets.2
    have hlength : (contents (.leaf id l rest)).nodes.length =
        (l.nodes id).length + rest.contents.nodes.length := List.length_append
    rw [tops, List.forall_mem_cons]
    exact ⟨hleaf.mono (by omega), fun top htop => (hrest top htop).mono (by omega)⟩
  | scope head inside rest ihi ihr =>
    simp only [contents, ScopeHead.node, Contents.stored_append, Contents.stored_node,
      Contents.leaves_append, List.forall_mem_append] at hstored htargets
    obtain ⟨⟨hi, hnode⟩, hr⟩ := hstored
    have hscope := ScopeHead.holds hnode (ihi hi htargets.1.1)
    have hrest := ihr hr htargets.2
    have hlength : (contents (.scope head inside rest)).nodes.length =
        inside.contents.nodes.length + 1 + rest.contents.nodes.length := by
      simp [Contents.node]
      omega
    rw [tops, List.forall_mem_cons]
    exact ⟨hscope.mono (by omega), fun top htop => (hrest top htop).mono (by omega)⟩
  | branch j c condition b body rest ihc ihb ihr | loop j c condition b body rest ihc ihb ihr =>
    simp only [contents, ScopeHead.node, Junction.branch, Junction.loop, Contents.stored_append,
      Contents.stored_node, Contents.leaves_append, List.forall_mem_append] at hstored htargets
    obtain ⟨⟨⟨⟨-, hc, hcnode⟩, hb, hbnode⟩, hj⟩, hr⟩ := hstored
    obtain ⟨⟨⟨⟨-, htc, -⟩, htb, -⟩, -⟩, htr⟩ := htargets
    have hcondition := ScopeHead.holds hcnode (ihc hc htc)
    have hbody := ScopeHead.holds hbnode (ihb hb htb)
    have hrest := ihr hr htr
    have hjunction := Junction.holds hj (Store.links_of_none rfl rfl) rfl hcondition hbody
    rw [tops, List.forall_mem_cons]
    refine ⟨hjunction.mono ?_, fun top htop => (hrest top htop).mono ?_⟩ <;>
      simp [Contents.node, Contents.number] <;> omega
  | fork j c condition b body a o otherwise rest ihc ihb iho ihr =>
    simp only [contents, ScopeHead.node, Junction.branch, Junction.alternative,
      Contents.stored_append, Contents.stored_node, Contents.leaves_append,
      List.forall_mem_append] at hstored htargets
    obtain ⟨⟨⟨⟨⟨-, hc, hcnode⟩, hb, hbnode⟩, hj⟩, ⟨-, ho, honode⟩, ha⟩, hr⟩ := hstored
    obtain ⟨⟨⟨⟨⟨-, htc, -⟩, htb, -⟩, -⟩, ⟨-, hto, -⟩, -⟩, htr⟩ := htargets
    have hcondition := ScopeHead.holds hcnode (ihc hc htc)
    have hbody := ScopeHead.holds hbnode (ihb hb htb)
    have hotherwise := ScopeHead.holds honode (iho ho hto)
    have hrest := ihr hr htr
    have hlinks : store.Links (.branch j.location c.id b.id (some a.id) j.index) :=
      ⟨fun _ h => absurd h (Option.not_mem_none _), fun _ h => ⟨_, Option.some.inj h ▸ ha⟩⟩
    have hjunction := Junction.holds hj hlinks rfl hcondition hbody
    have halternative : store.Holds (otherwise.contents.nodes.length + 2) a.id :=
      .node ha (Store.links_of_none rfl rfl) (List.forall_mem_singleton.mpr hotherwise)
    rw [tops, List.forall_mem_cons, List.forall_mem_cons]
    refine ⟨hjunction.mono ?_, halternative.mono ?_, fun top htop => (hrest top htop).mono ?_⟩ <;>
      simp [Contents.node, Contents.number] <;> omega

end Holds

/-- If any blocks were added since an earlier state of a store, the last block was. -/
theorem Store.last_mem_allocated {before after : Store} {id : BlockId}
    (hid : id ∈ before.allocated after) :
    ⟨after.blocks.size - 1, before.generation⟩ ∈ before.allocated after := by
  rw [allocated, handles, List.mem_map] at hid ⊢
  obtain ⟨i, hi, -⟩ := hid
  have hlt := List.mem_range'_1.mp hi
  exact ⟨after.blocks.size - 1, List.mem_range'_1.mpr (by omega), rfl⟩

namespace UnitTree

variable {before after : Store} {unit : List DefId} {chunks : List Chunk}

/-- **Every block that parsing has added resolves.** -/
theorem allocated_resolves (h : UnitTree before after unit chunks) {id : BlockId}
    (hid : id ∈ before.allocated after) : ∃ block, after.block? id = some block := by
  obtain ⟨chunk, hchunk, hmem⟩ := h.mem_allocated.mp hid
  obtain ⟨p, hp, rfl⟩ := List.mem_map.mp hmem
  exact ⟨p.2, h.stored_chunk hchunk p hp⟩

/-- A store that has the last block of a unit has room for all of them. -/
theorem size_le_of_allocated (h : UnitTree before after unit chunks) {store : Store}
    (hblocks : ∀ id ∈ before.allocated after, store.block? id = after.block? id) {id : BlockId}
    (hid : id ∈ before.allocated after) : after.blocks.size ≤ store.blocks.size := by
  have hlast := Store.last_mem_allocated hid
  obtain ⟨block, hblock⟩ := h.allocated_resolves hlast
  rw [← hblocks _ hlast] at hblock
  have hlt : after.blocks.size - 1 < store.blocks.size :=
    (Array.getElem?_eq_some_iff.mp (Store.block?_eq_some.mp hblock).2).1
  omega

/-- **A store holds a unit if it has the nodes that parsing has added.** -/
theorem holdsUnit (h : UnitTree before after unit chunks) {store : Store}
    (hblocks : ∀ id ∈ before.allocated after, store.block? id = after.block? id)
    (hdefs : ∀ id ∈ unit, store.def? id = after.def? id) : store.HoldsUnit unit := by
  intro id hid
  obtain ⟨i, hi⟩ := List.mem_iff_getElem?.mp hid
  obtain ⟨chunk, d, hchunk, hd, hmarked, -⟩ := h.definition_at hi
  have hmem := List.mem_of_getElem? hchunk
  refine ⟨d, (hdefs id hid).trans hd, fun body hbody => ?_⟩
  rw [Option.mem_def, Chunk.root?_eq (h.chunk i chunk hchunk).fits hmarked] at hbody
  have hnew : body ∈ before.allocated after :=
    h.mem_allocated.mpr ⟨chunk, hmem, Chunk.root_mem hbody⟩
  have hstored : chunk.contents.Stored store := fun p hp => by
    rw [hblocks p.1 (h.mem_allocated.mpr ⟨chunk, hmem, List.mem_map_of_mem hp⟩)]
    exact h.stored_chunk hmem p hp
  have htargets (l : Leaf) (hl : l ∈ chunk.contents.leaves) :
      ∀ target ∈ l.target?, ∃ d, store.def? target = some d := by
    have hfits := (h.chunk i chunk hchunk).leaves l hl
    have hresolves {token : Token} {target : DefId} {chunk' : Chunk}
        (hstands : StandsForChunk unit chunks i token target chunk') :
        ∃ d, store.def? target = some d := by
      obtain ⟨j, d, hj, hd, -⟩ := h.target_at hstands
      exact ⟨d, (hdefs target (List.mem_of_getElem? hj)).trans hd⟩
    cases l with
    | reference token target =>
      obtain ⟨-, chunk', hstands⟩ := hfits
      exact fun _ ht => Option.some.inj ht ▸ hresolves hstands
    | call location callee token target =>
      obtain ⟨-, chunk', hstands, -⟩ := hfits
      exact fun _ ht => Option.some.inj ht ▸ hresolves hstands
    | expression token | cast location types | assembly token =>
      exact fun _ ht => absurd ht (Option.not_mem_none _)
  have hlength := Nat.le_trans (h.length_nodes_le hmem) (h.size_le_of_allocated hblocks hnew)
  obtain ⟨definition, tree⟩ := chunk
  cases tree with
  | none => cases hbody
  | some tree =>
    obtain ⟨head, inside⟩ := tree
    obtain rfl : head.id = body := Option.some.inj hbody
    simp only [Chunk.contents, ScopeHead.node, Contents.stored_append, Contents.stored_node,
      Contents.leaves_append, List.forall_mem_append, Contents.nodes_append,
      List.length_append] at hstored htargets hlength
    refine (ScopeHead.holds hstored.1 (Forest.holds hstored.2 htargets.2)).mono ?_
    rw [Nat.add_comm]
    exact hlength

end UnitTree

/-! ## Nodes under other handles -/

/-- **A store has the nodes of another one**, under renamed handles. -/
structure Carries (ρ : Renaming) (store store' : Store) : Prop where
  block : ∀ {id block}, store.block? id = some block →
    store'.block? (ρ.block id) = some (block.rename ρ)
  definition : ∀ {id d}, store.def? id = some d →
    store'.def? (ρ.definition id) = some (d.rename ρ)
  size_le : store.blocks.size ≤ store'.blocks.size

section Rename

variable (ρ : Renaming) (d : Definition)

@[simp] theorem Definition.keyword_rename : (d.rename ρ).keyword = d.keyword := by
  obtain ⟨_, _, _, _, _, body⟩ := d
  cases body <;> rfl

@[simp] theorem Definition.isEntry_rename : (d.rename ρ).isEntry = d.isEntry := by
  obtain ⟨_, _, _, _, _, body⟩ := d
  cases body <;> rfl

@[simp] theorem Definition.label_rename : (d.rename ρ).label = d.label := by
  obtain ⟨_, _, _, _, _, body⟩ := d
  cases body <;> rfl

end Rename

namespace Carries

variable {ρ : Renaming} {store store' : Store}

/-! ## Outlines -/

theorem alternativeIndex?_eq (h : Carries ρ store store') {next : Option BlockId}
    (hnext : ∀ id ∈ next, ∃ alternative, store.block? id = some alternative) :
    alternativeIndex? store' (next.map ρ.block) = alternativeIndex? store next := by
  cases next with
  | none => rfl
  | some id =>
    obtain ⟨block, hblock⟩ := hnext id rfl
    rw [alternativeIndex?, alternativeIndex?, Option.map_some, Option.bind_some, Option.bind_some,
      hblock, h.block hblock]
    cases block <;> rfl

theorem blockLine_eq (h : Carries ρ store store') {block : Block} (hlinks : store.Links block) :
    blockLine store' (block.rename ρ) = blockLine store block := by
  cases block with
  | reference token target =>
    obtain ⟨d, hd⟩ := hlinks.target target rfl
    delta blockLine
    simp only [Block.rename, hd, h.definition hd, Option.map_some, d.keyword_rename]
  | branch location condition body next index =>
    have hnext : alternativeIndex? store' (next.map ρ.block) = alternativeIndex? store next :=
      h.alternativeIndex?_eq hlinks.next
    delta blockLine
    simp only [Block.rename, hnext]
  | _ => rfl

/-- **The outline of a block is read off the blocks below it.** -/
theorem outlineBlock_eq (h : Carries ρ store store') {n : Nat} {id : BlockId}
    (hid : store.Holds n id) {levels levels' : Nat} (hlevels : n ≤ levels)
    (hlevels' : n ≤ levels') (depth : Nat) :
    outlineBlock store' levels' depth (ρ.block id) = outlineBlock store levels depth id := by
  induction hid generalizing levels levels' depth with
  | node hblock hlinks _ ih =>
    obtain ⟨levels, rfl⟩ : ∃ k, levels = k + 1 := Nat.exists_eq_add_one.mpr (by omega)
    obtain ⟨levels', rfl⟩ : ∃ k, levels' = k + 1 := Nat.exists_eq_add_one.mpr (by omega)
    simp only [outlineBlock, hblock, h.block hblock, h.blockLine_eq hlinks, Block.children_rename,
      List.flatMap_map]
    congr 1
    refine List.flatMap_congr fun child hchild => ?_
    exact ih child hchild (Nat.le_of_succ_le_succ hlevels) (Nat.le_of_succ_le_succ hlevels') _

theorem outlineDef_eq (h : Carries ρ store store') {d : Definition}
    (hbody : ∀ body ∈ d.body?, store.Holds store.blocks.size body) :
    outlineDef store' (d.rename ρ) = outlineDef store d := by
  simp only [outlineDef, d.keyword_rename, d.isEntry_rename]
  obtain ⟨location, ident, place, used, index, body⟩ := d
  cases body with
  | function f =>
    have hlines := h.outlineBlock_eq (hbody f.body rfl) (Nat.le_succ _)
      (Nat.le_succ_of_le h.size_le) 2
    simp only [Definition.rename, DefinitionBody.rename, Function.rename, outlineLevels, hlines]
    rfl
  | memory capacity => rfl
  | string literal => rfl

/-- **The outline of a unit is read off its nodes.** -/
theorem outline_eq (h : Carries ρ store store') {unit : List DefId} (hunit : store.HoldsUnit unit) :
    outline store' (unit.map ρ.definition) = outline store unit := by
  have hlines : outlineLines store' (unit.map ρ.definition) = outlineLines store unit := by
    simp only [outlineLines, List.length_map, List.flatMap_map]
    congr 1
    refine List.flatMap_congr fun id hid => ?_
    obtain ⟨d, hd, hbody⟩ := hunit id hid
    rw [hd, h.definition hd]
    exact h.outlineDef_eq hbody
  rw [outline, outline, hlines]

end Carries

/-! ## Code -/

section Lookup

variable {α : Type} {store : Store}

theorem getDef_bind {id : DefId} {d : Definition} (h : store.def? id = some d)
    (k : Definition → Emission α) : getDef store id >>= k = k d := by
  rw [getDef, h]
  rfl

theorem getBlock_bind {id : BlockId} {block : Block} (h : store.block? id = some block)
    (k : Block → Emission α) : getBlock store id >>= k = k block := by
  rw [getBlock, h]
  rfl

theorem forM_map_congr {β : Type} {k k' : β → Emission PUnit} {f : β → β} {xs : List β}
    (h : ∀ x ∈ xs, k' (f x) = k x) : (xs.map f).forM k' = xs.forM k := by
  induction xs with
  | nil => rfl
  | cons x xs ih =>
    rw [List.forall_mem_cons] at h
    change k' (f x) >>= (fun _ => (xs.map f).forM k') = k x >>= fun _ => xs.forM k
    rw [h.1, ih h.2]

end Lookup

namespace Carries

variable {α : Type} {ρ : Renaming} {store store' : Store}

/-- The blocks inside a scope, for code that depends on them. -/
theorem getScope_bind_eq (h : Carries ρ store store') {n : Nat} {id : BlockId}
    (hid : store.Holds n id) (role : String) {k k' : List BlockId → Emission α}
    (hk : ∀ children, (∀ child ∈ children, store.Holds n child) →
      k' (children.map ρ.block) = k children) :
    getScope store' (ρ.block id) role >>= k' = getScope store id role >>= k := by
  cases hid with
  | @node n id block hblock hlinks hbelow =>
    rw [getScope, getScope, getBlock_bind hblock, getBlock_bind (h.block hblock)]
    cases block with
    | scope bracket location children =>
      exact hk children fun child hchild => (hbelow child hchild).mono (Nat.le_succ n)
    | _ => rfl

theorem getAlternative_eq (h : Carries ρ store store') {next : Option BlockId}
    (hnext : ∀ id ∈ next, ∃ alternative, store.block? id = some alternative) :
    getAlternative store' (next.map ρ.block) = getAlternative store next := by
  cases next with
  | none => rfl
  | some id =>
    obtain ⟨block, hblock⟩ := hnext id rfl
    simp only [getAlternative, Option.map_some, getBlock_bind hblock,
      getBlock_bind (h.block hblock)]
    cases block <;> rfl

theorem lowerReference_eq (h : Carries ρ store store') (token : Token) {target : DefId}
    (htarget : ∃ d, store.def? target = some d) :
    lowerReference store' token (ρ.definition target) = lowerReference store token target := by
  obtain ⟨d, hd⟩ := htarget
  rw [lowerReference, lowerReference, getDef_bind hd, getDef_bind (h.definition hd),
    d.label_rename]

theorem lowerCall_eq (h : Carries ρ store store') {n : Nat} {callee : BlockId}
    (hcallee : store.Holds n callee) :
    lowerCall store' (ρ.block callee) = lowerCall store callee := by
  cases hcallee with
  | @node n id block hblock hlinks _ =>
    rw [lowerCall, lowerCall, getBlock_bind hblock, getBlock_bind (h.block hblock)]
    cases block with
    | reference token target =>
      obtain ⟨d, hd⟩ := hlinks.target target rfl
      simp only [Block.rename, getDef_bind hd, getDef_bind (h.definition hd), d.label_rename,
        d.isFunction_rename]
      rfl
    | _ => rfl

/-- **The code of a block is read off the blocks below it.** -/
theorem lowerBlock_eq (h : Carries ρ store store') {n : Nat} {id : BlockId}
    (hid : store.Holds n id) {levels levels' : Nat} (hlevels : n ≤ levels)
    (hlevels' : n ≤ levels') :
    lowerBlock store' levels' (ρ.block id) = lowerBlock store levels id := by
  -- The blocks inside a part lie two levels below, but are lowered with one level less.
  induction n generalizing id levels levels' with
  | zero => cases hid
  | succ n ih =>
    obtain ⟨levels, rfl⟩ : ∃ k, levels = k + 1 := Nat.exists_eq_add_one.mpr (by omega)
    obtain ⟨levels', rfl⟩ : ∃ k, levels' = k + 1 := Nat.exists_eq_add_one.mpr (by omega)
    have hblocks {children : List BlockId} (hchildren : ∀ child ∈ children, store.Holds n child) :
        (children.map ρ.block).forM (lowerBlock store' levels') =
          children.forM (lowerBlock store levels) :=
      forM_map_congr fun child hchild => ih (hchildren child hchild)
        (Nat.le_of_succ_le_succ hlevels) (Nat.le_of_succ_le_succ hlevels')
    cases hid with
    | @node _ _ block hblock hlinks hbelow =>
      rw [lowerBlock, lowerBlock, getBlock_bind hblock, getBlock_bind (h.block hblock)]
      cases block with
      | expression token => rfl
      | reference token target => exact h.lowerReference_eq token (hlinks.target target rfl)
      | call location callee => exact h.lowerCall_eq (hbelow callee (.head _))
      | cast location types => rfl
      | scope bracket location children => exact hblocks hbelow
      | branch location condition body next index =>
        refine h.getScope_bind_eq (hbelow condition (.head _)) _ fun conditions hconditions => ?_
        refine h.getScope_bind_eq (hbelow body (.tail _ (.head _))) _ fun bodies hbodies => ?_
        rw [hblocks hconditions, hblocks hbodies,
          show getAlternative store' (next.map ρ.block) = getAlternative store next from
            h.getAlternative_eq hlinks.next]
      | alternative location body index =>
        refine h.getScope_bind_eq (hbelow body (.head _)) _ fun bodies hbodies => ?_
        rw [hblocks hbodies]
      | loop location condition body index =>
        refine h.getScope_bind_eq (hbelow condition (.head _)) _ fun conditions hconditions => ?_
        refine h.getScope_bind_eq (hbelow body (.tail _ (.head _))) _ fun bodies hbodies => ?_
        rw [hblocks hconditions, hblocks hbodies]
      | assembly token => rfl

theorem lowerFunction_eq (h : Carries ρ store store') (d : Definition) {f : Function} {n : Nat}
    (hbody : store.Holds n f.body) {levels levels' : Nat} (hlevels : n ≤ levels)
    (hlevels' : n ≤ levels') :
    lowerFunction store' levels' (d.rename ρ) (f.rename ρ) = lowerFunction store levels d f := by
  have hprologue : prologue (d.rename ρ) f.isEntry = prologue d f.isEntry := by
    simp only [prologue, d.label_rename]
  rw [lowerFunction, lowerFunction, show (f.rename ρ).isEntry = f.isEntry from rfl, hprologue]
  refine bind_congr fun _ => h.getScope_bind_eq hbody _ fun children hchildren => ?_
  have hblocks : (children.map ρ.block).forM (lowerBlock store' levels') =
      children.forM (lowerBlock store levels) :=
    forM_map_congr fun child hchild => h.lowerBlock_eq (hchildren child hchild) hlevels hlevels'
  rw [hblocks]

theorem lowerDef_eq (h : Carries ρ store store') (options : EmitOptions) {id : DefId}
    {d : Definition} (hd : store.def? id = some d)
    (hbody : ∀ body ∈ d.body?, store.Holds store.blocks.size body) {levels levels' : Nat}
    (hlevels : store.blocks.size ≤ levels) (hlevels' : store.blocks.size ≤ levels') :
    lowerDef options store' levels' (ρ.definition id) = lowerDef options store levels id := by
  have hrename : (d.rename ρ).body = d.body.rename ρ := rfl
  rw [lowerDef, lowerDef, getDef_bind hd, getDef_bind (h.definition hd), hrename,
    show (d.rename ρ).used = d.used from rfl,
    show (d.rename ρ).sectionName = d.sectionName from rfl, d.label_rename]
  cases hf : d.body with
  | function f =>
    have hholds : store.Holds store.blocks.size f.body := hbody f.body (by
      rw [Definition.body?, hf]
      rfl)
    simp only [DefinitionBody.rename, h.lowerFunction_eq d hholds hlevels hlevels']
  | memory capacity =>
    simp only [DefinitionBody.rename, lowerMemory, d.label_rename]
    rfl
  | string literal => rfl

/-- **The code of a unit is read off its nodes**, whatever the device. -/
theorem emitUnit_eq (h : Carries ρ store store') {unit : List DefId} (hunit : store.HoldsUnit unit)
    (options : EmitOptions) (device : Device) :
    emitUnit options store' (unit.map ρ.definition) device = emitUnit options store unit device := by
  have hlevels (store : Store) : store.blocks.size ≤ emitLevels store device :=
    Nat.le_trans (Nat.le_succ _) (Nat.le_mul_of_pos_right _ (Nat.succ_pos _))
  have hdefs : (unit.map ρ.definition).forM
        (lowerDef options store' (emitLevels store' device)) =
      unit.forM (lowerDef options store (emitLevels store device)) := by
    refine forM_map_congr fun id hid => ?_
    obtain ⟨d, hd, hbody⟩ := hunit id hid
    exact h.lowerDef_eq options hd hbody (hlevels store)
      (Nat.le_trans h.size_le (hlevels store'))
  rw [emitUnit, emitUnit, lowerUnit, lowerUnit, hdefs]

end Carries

end StackCompiler
