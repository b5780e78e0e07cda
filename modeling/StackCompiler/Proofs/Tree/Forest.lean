import Mathlib.Data.List.Perm.Basic
import Mathlib.Logic.Relation
import StackCompiler.Syntax.Store

/-!
# Forests of blocks

A forest is a row of blocks with everything below them. Its blocks are listed with their handles, in
the order in which they are made: the parts of a block before the block itself.

* `Leaf`, `Forest`: rows of blocks.
* `Forest.tops`: the handles of the row.
* `Forest.contents`: the blocks, the numbers and the leaves of a forest.
* **`Forest.count_ids`**: every block but those of the row lies below exactly one block.
* `Forest.perm_numbers`: the numbers of branches, alternatives and loops.
* `Forest.shaped`, `Forest.reached`: the blocks of a forest that a store holds.
* `Forest.leafy`: the blocks of leaves.
-/

namespace StackCompiler

/-! ## Blocks and their parts -/

namespace Block

/-- The blocks of a branch, alternative or loop that have to be scopes. -/
def parts : Block → List BlockId
  | .branch _ condition body _ _ | .loop _ condition body _ => [condition, body]
  | .alternative _ body _ => [body]
  | _ => []

/-- The number of a branch, alternative or loop. -/
def number? : Block → Option Nat
  | .branch _ _ _ _ index | .alternative _ _ index | .loop _ _ _ index => some index
  | _ => none

end Block

/-! ## Forests -/

/-- **A block whose code has no code of other blocks inside.** A call comes with its name. -/
inductive Leaf where
  | expression (token : Token)
  | reference (token : Token) (target : DefId)
  | call (location : Location) (callee : BlockId) (token : Token) (target : DefId)
  | cast (location : Location) (types : List Token)
  | assembly (token : Token)

/-- What a scope is, apart from its blocks. -/
structure ScopeHead where
  id : BlockId
  bracket : Bracket
  location : Location

/-- What a branch, alternative or loop is, apart from its parts. -/
structure Junction where
  id : BlockId
  location : Location
  index : Nat

/-- **A row of blocks with everything below them.** -/
inductive Forest where
  | nil
  | leaf (id : BlockId) (leaf : Leaf) (rest : Forest)
  | scope (head : ScopeHead) (inside rest : Forest)
  /-- A branch without alternative, and more blocks. -/
  | branch (junction : Junction) (c : ScopeHead) (condition : Forest) (b : ScopeHead)
      (body rest : Forest)
  /-- A branch with its alternative, and more blocks. -/
  | fork (junction : Junction) (c : ScopeHead) (condition : Forest) (b : ScopeHead) (body : Forest)
      (alternative : Junction) (o : ScopeHead) (otherwise rest : Forest)
  | loop (junction : Junction) (c : ScopeHead) (condition : Forest) (b : ScopeHead)
      (body rest : Forest)

/-- The blocks of a leaf. -/
def Leaf.nodes (id : BlockId) : Leaf → List (BlockId × Block)
  | .expression token => [(id, .expression token)]
  | .reference token target => [(id, .reference token target)]
  | .call location callee token target =>
    [(callee, .reference token target), (id, .call location callee)]
  | .cast location types => [(id, .cast location types)]
  | .assembly token => [(id, .assembly token)]

/-- **What a forest consists of.** -/
structure Contents where
  /-- The blocks with their handles. -/
  nodes : List (BlockId × Block)
  /-- The numbers of branches, alternatives and loops. -/
  numbers : List Nat
  leaves : List Leaf

namespace Contents

instance : Append Contents :=
  ⟨fun c d => ⟨c.nodes ++ d.nodes, c.numbers ++ d.numbers, c.leaves ++ d.leaves⟩⟩

def empty : Contents := ⟨[], [], []⟩

def node (id : BlockId) (block : Block) : Contents := ⟨[(id, block)], [], []⟩

def number (index : Nat) : Contents := ⟨[], [index], []⟩

def ofLeaf (id : BlockId) (leaf : Leaf) : Contents := ⟨leaf.nodes id, [], [leaf]⟩

section Laws

variable (c d : Contents)

@[simp] theorem nodes_append : (c ++ d).nodes = c.nodes ++ d.nodes := rfl

@[simp] theorem numbers_append : (c ++ d).numbers = c.numbers ++ d.numbers := rfl

@[simp] theorem leaves_append : (c ++ d).leaves = c.leaves ++ d.leaves := rfl

theorem append_assoc (e : Contents) : c ++ d ++ e = c ++ (d ++ e) := by
  change Contents.mk _ _ _ = Contents.mk _ _ _
  simp

@[simp] theorem append_empty : c ++ empty = c := by
  change Contents.mk _ _ _ = c
  simp [empty]

end Laws

def ids (c : Contents) : List BlockId := c.nodes.map Prod.fst

/-- The handles that lie below the blocks. -/
def below (c : Contents) : List BlockId := c.nodes.flatMap fun p => p.2.children

/-- The numbers that stand in the blocks. -/
def numbered (c : Contents) : List Nat := c.nodes.filterMap fun p => p.2.number?

@[simp] theorem ids_append (c d : Contents) : (c ++ d).ids = c.ids ++ d.ids := List.map_append

@[simp] theorem below_append (c d : Contents) : (c ++ d).below = c.below ++ d.below :=
  List.flatMap_append

@[simp] theorem numbered_append (c d : Contents) : (c ++ d).numbered = c.numbered ++ d.numbered :=
  List.filterMap_append

@[simp] theorem ids_node (id : BlockId) (block : Block) : (node id block).ids = [id] := rfl

@[simp] theorem below_node (id : BlockId) (block : Block) : (node id block).below = block.children :=
  List.append_nil _

@[simp] theorem numbered_node (id : BlockId) (block : Block) :
    (node id block).numbered = block.number?.toList := by
  cases block <;> rfl

@[simp] theorem numbers_node (id : BlockId) (block : Block) : (node id block).numbers = [] := rfl

@[simp] theorem leaves_node (id : BlockId) (block : Block) : (node id block).leaves = [] := rfl

@[simp] theorem ids_number (index : Nat) : (number index).ids = [] := rfl

@[simp] theorem below_number (index : Nat) : (number index).below = [] := rfl

@[simp] theorem numbered_number (index : Nat) : (number index).numbered = [] := rfl

@[simp] theorem numbers_number (index : Nat) : (number index).numbers = [index] := rfl

@[simp] theorem leaves_number (index : Nat) : (number index).leaves = [] := rfl

end Contents

@[simp] def ScopeHead.block (head : ScopeHead) (inside : List BlockId) : Block :=
  .scope head.bracket head.location inside

@[simp] def ScopeHead.node (head : ScopeHead) (inside : List BlockId) : Contents :=
  .node head.id (head.block inside)

/-- A branch, given its parts and its alternative. -/
@[simp] def Junction.branch (j : Junction) (c b : ScopeHead) (next : Option BlockId) : Contents :=
  .node j.id (.branch j.location c.id b.id next j.index)

@[simp] def Junction.alternative (j : Junction) (b : ScopeHead) : Contents :=
  .node j.id (.alternative j.location b.id j.index)

@[simp] def Junction.loop (j : Junction) (c b : ScopeHead) : Contents :=
  .node j.id (.loop j.location c.id b.id j.index)

namespace Forest

/-- **The handles of the row.** The alternative of a branch stands behind it. -/
@[simp] def tops : Forest → List BlockId
  | .nil => []
  | .leaf id _ rest => id :: rest.tops
  | .scope head _ rest => head.id :: rest.tops
  | .branch j _ _ _ _ rest | .loop j _ _ _ _ rest => j.id :: rest.tops
  | .fork j _ _ _ _ a _ _ rest => j.id :: a.id :: rest.tops

/-- **The blocks, numbers and leaves of a forest**, in the order in which they are made. -/
@[simp] def contents : Forest → Contents
  | .nil => .empty
  | .leaf id l rest => .ofLeaf id l ++ rest.contents
  | .scope head inside rest => inside.contents ++ head.node inside.tops ++ rest.contents
  | .branch j c condition b body rest =>
    .number j.index ++ (condition.contents ++ c.node condition.tops) ++
      (body.contents ++ b.node body.tops) ++ j.branch c b none ++ rest.contents
  | .fork j c condition b body a o otherwise rest =>
    .number j.index ++ (condition.contents ++ c.node condition.tops) ++
      (body.contents ++ b.node body.tops) ++ j.branch c b (some a.id) ++
      (.number a.index ++ (otherwise.contents ++ o.node otherwise.tops) ++ a.alternative o) ++
      rest.contents
  | .loop j c condition b body rest =>
    .number j.index ++ (condition.contents ++ c.node condition.tops) ++
      (body.contents ++ b.node body.tops) ++ j.loop c b ++ rest.contents

/-- Two rows, one behind the other. -/
def append : Forest → Forest → Forest
  | .nil, G => G
  | .leaf id l rest, G => .leaf id l (rest.append G)
  | .scope head inside rest, G => .scope head inside (rest.append G)
  | .branch j c condition b body rest, G => .branch j c condition b body (rest.append G)
  | .fork j c condition b body a o otherwise rest, G =>
    .fork j c condition b body a o otherwise (rest.append G)
  | .loop j c condition b body rest, G => .loop j c condition b body (rest.append G)

instance : Append Forest := ⟨append⟩

theorem tops_append (F G : Forest) : (F ++ G).tops = F.tops ++ G.tops := by
  change (F.append G).tops = _
  induction F with
  | nil => rfl
  | leaf id leaf rest ih => simp [append, tops, ih]
  | scope head inside rest _ ih => simp [append, tops, ih]
  | branch j c condition b body rest _ _ ih => simp [append, tops, ih]
  | fork j c condition b body a o otherwise rest _ _ _ ih => simp [append, tops, ih]
  | loop j c condition b body rest _ _ ih => simp [append, tops, ih]

theorem contents_append (F G : Forest) : (F ++ G).contents = F.contents ++ G.contents := by
  change (F.append G).contents = _
  induction F with
  | nil => rfl
  | leaf id leaf rest ih => simp [append, contents, ih, Contents.append_assoc]
  | scope head inside rest _ ih => simp [append, contents, ih, Contents.append_assoc]
  | branch j c condition b body rest _ _ ih => simp [append, contents, ih, Contents.append_assoc]
  | fork j c condition b body a o otherwise rest _ _ _ ih =>
    simp [append, contents, ih, Contents.append_assoc]
  | loop j c condition b body rest _ _ ih => simp [append, contents, ih, Contents.append_assoc]

/-! ## Owners -/

theorem Leaf.count_nodes (id : BlockId) (leaf : Leaf) (x : BlockId) :
    [id].count x + (Contents.ofLeaf id leaf).below.count x =
      (Contents.ofLeaf id leaf).ids.count x := by
  cases leaf with
  | call location callee token target =>
    simp [Contents.ofLeaf, Leaf.nodes, Contents.below, Contents.ids, Block.children,
      List.count_cons]
  | _ => rfl

/-- **Every block of a forest stands in the row or below exactly one block.** -/
theorem count_ids (F : Forest) (x : BlockId) :
    F.tops.count x + F.contents.below.count x = F.contents.ids.count x := by
  induction F with
  | nil => rfl
  | leaf id l rest ih =>
    have hl := Leaf.count_nodes id l x
    simp only [tops, contents, Contents.below_append, Contents.ids_append, List.count_append,
      List.count_cons, List.count_nil] at hl ⊢
    omega
  | scope head inside rest ihi ihr =>
    simp [Block.children, List.count_cons]
    omega
  | branch j c condition b body rest ihc ihb ihr =>
    simp [Block.children, List.count_cons]
    omega
  | fork j c condition b body a o otherwise rest ihc ihb iho ihr =>
    simp [Block.children, List.count_cons]
    omega
  | loop j c condition b body rest ihc ihb ihr =>
    simp [Block.children, List.count_cons]
    omega

/-! ## Numbers -/

theorem count_numbers (F : Forest) (x : Nat) :
    F.contents.numbered.count x = F.contents.numbers.count x := by
  induction F with
  | nil => rfl
  | leaf id l rest ih =>
    have hl : (Contents.ofLeaf id l).numbered = [] := by cases l <;> rfl
    simp [hl, ih, show (Contents.ofLeaf id l).numbers = [] from rfl]
  | scope head inside rest ihi ihr => simp [Block.number?, ihi, ihr]
  | branch j c condition b body rest ihc ihb ihr =>
    simp [Block.number?, List.count_cons, ihc, ihb, ihr]
    omega
  | fork j c condition b body a o otherwise rest ihc ihb iho ihr =>
    simp [Block.number?, List.count_cons, ihc, ihb, iho, ihr]
    omega
  | loop j c condition b body rest ihc ihb ihr =>
    simp [Block.number?, List.count_cons, ihc, ihb, ihr]
    omega

/-- **The numbers of a forest** are those of its branches, alternatives and loops. -/
theorem perm_numbers (F : Forest) : F.contents.numbered.Perm F.contents.numbers :=
  List.perm_iff_count.mpr F.count_numbers

end Forest

/-! ## Forests in a store -/

/-- **The store holds the blocks.** -/
def Contents.Stored (store : Store) (c : Contents) : Prop :=
  ∀ p ∈ c.nodes, store.block? p.1 = some p.2

@[simp] theorem Contents.stored_append {store : Store} {c d : Contents} :
    (c ++ d).Stored store ↔ c.Stored store ∧ d.Stored store := List.forall_mem_append

@[simp] theorem Contents.stored_node {store : Store} {id : BlockId} {block : Block} :
    (Contents.node id block).Stored store ↔ store.block? id = some block := List.forall_mem_singleton

/-- One block lies directly below another. -/
def Owns (store : Store) (parent child : BlockId) : Prop :=
  ∃ block, store.block? parent = some block ∧ child ∈ block.children

/-- Can the block stand alone in a row? -/
def Block.standsAlone : Block → Bool
  | .branch _ _ _ (some _) _ | .alternative .. => false
  | _ => true

/-- **Every alternative of a row stands right behind its branch.** -/
inductive Paired (store : Store) : List BlockId → Prop where
  | nil : Paired store []
  | alone {id : BlockId} {block : Block} {rest : List BlockId} (hblock : store.block? id = some block)
      (halone : block.standsAlone = true) (hrest : Paired store rest) : Paired store (id :: rest)
  | pair {id alternative : BlockId} {rest : List BlockId} {location location' : Location}
      {condition body body' : BlockId} {index index' : Nat}
      (hbranch : store.block? id =
        some (.branch location condition body (some alternative) index))
      (halternative : store.block? alternative = some (.alternative location' body' index'))
      (hrest : Paired store rest) : Paired store (id :: alternative :: rest)

/-- The block is a scope. -/
def IsScope (store : Store) (id : BlockId) : Prop :=
  ∃ bracket location children, store.block? id = some (.scope bracket location children)

/-- **The blocks next to a block have the shape that it asks for.** -/
structure WellShaped (store : Store) (block : Block) : Prop where
  parts : ∀ part ∈ block.parts, IsScope store part
  row : ∀ bracket location children, block = .scope bracket location children →
    Paired store children

/-- Every block has the shape it needs. -/
def Contents.Shaped (store : Store) (c : Contents) : Prop := ∀ p ∈ c.nodes, WellShaped store p.2

@[simp] theorem Contents.shaped_append {store : Store} {c d : Contents} :
    (c ++ d).Shaped store ↔ c.Shaped store ∧ d.Shaped store := List.forall_mem_append

@[simp] theorem Contents.shaped_node {store : Store} {id : BlockId} {block : Block} :
    (Contents.node id block).Shaped store ↔ WellShaped store block := List.forall_mem_singleton

@[simp] theorem Contents.shaped_number {store : Store} {index : Nat} :
    (Contents.number index).Shaped store ↔ True :=
  iff_of_true (fun _ hp => absurd hp List.not_mem_nil) trivial

/-- Every block is reached from some of the tops. -/
def Contents.ReachedFrom (store : Store) (tops : List BlockId) (c : Contents) : Prop :=
  ∀ id ∈ c.ids, ∃ top ∈ tops, Relation.ReflTransGen (Owns store) top id

section Stored

variable {store : Store}

namespace Contents

variable {c d : Contents} {tops tops' : List BlockId}

theorem reachedFrom_append :
    (c ++ d).ReachedFrom store tops ↔ c.ReachedFrom store tops ∧ d.ReachedFrom store tops := by
  rw [ReachedFrom, ids_append]
  exact List.forall_mem_append

theorem reachedFrom_number (index : Nat) : (number index).ReachedFrom store tops :=
  fun _ hid => absurd hid List.not_mem_nil

theorem reachedFrom_node {id : BlockId} (block : Block) (h : id ∈ tops) :
    (node id block).ReachedFrom store tops := by
  intro x hx
  obtain rfl := List.mem_singleton.mp hx
  exact ⟨x, h, .refl⟩

theorem ReachedFrom.mono (h : c.ReachedFrom store tops) (hsub : tops ⊆ tops') :
    c.ReachedFrom store tops' := by
  intro id hid
  obtain ⟨top, htop, hreach⟩ := h id hid
  exact ⟨top, hsub htop, hreach⟩

/-- What is reached from blocks is reached from a block above them. -/
theorem ReachedFrom.above (h : c.ReachedFrom store tops) {parent : BlockId}
    (howns : ∀ top ∈ tops, Owns store parent top) : c.ReachedFrom store [parent] := by
  intro id hid
  obtain ⟨top, htop, hreach⟩ := h id hid
  exact ⟨parent, .head _, .head (howns top htop) hreach⟩

theorem ReachedFrom.below {part : BlockId} (h : c.ReachedFrom store [part]) {parent : BlockId}
    (howns : Owns store parent part) : c.ReachedFrom store [parent] :=
  h.above (List.forall_mem_singleton.mpr howns)

/-- A branch or loop reaches itself, its parts and their insides. -/
theorem ReachedFrom.junction {id part part' : BlockId} (index : Nat) {block : Block}
    (hblock : store.block? id = some block) (hchildren : block.children = [part, part'])
    (hc : c.ReachedFrom store [part]) (hd : d.ReachedFrom store [part']) :
    (number index ++ c ++ d ++ node id block).ReachedFrom store [id] := by
  have howns : ∀ child ∈ [part, part'], Owns store id child :=
    fun child hchild => ⟨block, hblock, hchildren ▸ hchild⟩
  simp only [reachedFrom_append]
  exact ⟨⟨⟨reachedFrom_number _, hc.below (howns _ (.head _))⟩,
    hd.below (howns _ (.tail _ (.head _)))⟩, reachedFrom_node _ (.head _)⟩

/-- What is reached from a row is reached from the scope around it. -/
theorem ReachedFrom.enclose (h : c.ReachedFrom store tops) {head : ScopeHead}
    (hnode : store.block? head.id = some (head.block tops)) :
    (c ++ head.node tops).ReachedFrom store [head.id] :=
  reachedFrom_append.mpr
    ⟨h.above fun _ htop => ⟨_, hnode, htop⟩, reachedFrom_node _ (.head _)⟩

end Contents

theorem Leaf.standsAlone {id : BlockId} {l : Leaf} (h : (Contents.ofLeaf id l).Stored store) :
    ∃ block, store.block? id = some block ∧ block.standsAlone = true := by
  cases l with
  | call location callee token target => exact ⟨_, h _ (.tail _ (.head _)), rfl⟩
  | _ => exact ⟨_, h _ (.head _), rfl⟩

theorem Leaf.shaped (id : BlockId) (l : Leaf) : (Contents.ofLeaf id l).Shaped store := by
  intro p hp
  cases l with
  | call location callee token target =>
    rcases List.mem_pair.mp hp with rfl | rfl <;> exact ⟨by simp [Block.parts], by simp⟩
  | _ =>
    obtain rfl := List.mem_singleton.mp hp
    exact ⟨by simp [Block.parts], by simp⟩

theorem Leaf.reached {id : BlockId} {l : Leaf} (h : (Contents.ofLeaf id l).Stored store) :
    (Contents.ofLeaf id l).ReachedFrom store [id] := by
  intro x hx
  refine ⟨id, .head _, ?_⟩
  cases l with
  | call location callee token target =>
    rcases List.mem_pair.mp hx with rfl | rfl
    · exact .single ⟨_, h _ (.tail _ (.head _)), .head _⟩
    · exact .refl
  | _ =>
    obtain rfl := List.mem_singleton.mp hx
    exact .refl

namespace Forest

theorem paired_tops {F : Forest} (h : F.contents.Stored store) : Paired store F.tops := by
  induction F with
  | nil => exact .nil
  | leaf id l rest ih =>
    obtain ⟨hl, hrest⟩ := Contents.stored_append.mp h
    obtain ⟨block, hblock, halone⟩ := Leaf.standsAlone hl
    exact .alone hblock halone (ih hrest)
  | scope head inside rest _ ih =>
    simp only [contents, ScopeHead.node, Contents.stored_append, Contents.stored_node] at h
    exact .alone h.1.2 rfl (ih h.2)
  | branch j c condition b body rest _ _ ih =>
    simp only [contents, Junction.branch, Contents.stored_append, Contents.stored_node] at h
    exact .alone h.1.2 rfl (ih h.2)
  | fork j c condition b body a o otherwise rest _ _ _ ih =>
    simp only [contents, Junction.branch, Junction.alternative, Contents.stored_append,
      Contents.stored_node] at h
    exact .pair h.1.1.2 h.1.2.2 (ih h.2)
  | loop j c condition b body rest _ _ ih =>
    simp only [contents, Junction.loop, Contents.stored_append, Contents.stored_node] at h
    exact .alone h.1.2 rfl (ih h.2)

theorem isScope_pair {c b : ScopeHead} {inside inside' : List BlockId}
    (hc : store.block? c.id = some (c.block inside))
    (hb : store.block? b.id = some (b.block inside')) : ∀ part ∈ [c.id, b.id], IsScope store part :=
  List.forall_mem_cons.mpr ⟨⟨_, _, _, hc⟩, List.forall_mem_singleton.mpr ⟨_, _, _, hb⟩⟩

/-- A scope around a stored forest has the shape it needs. -/
theorem wellShaped_scope {F : Forest} (h : F.contents.Stored store) (head : ScopeHead) :
    WellShaped store (head.block F.tops) := by
  refine ⟨by simp [ScopeHead.block, Block.parts], fun _ _ _ heq => ?_⟩
  cases heq
  exact paired_tops h

/-- **Every block of a stored forest has the shape it needs.** -/
theorem shaped {F : Forest} (h : F.contents.Stored store) : F.contents.Shaped store := by
  induction F with
  | nil => exact fun _ hp => absurd hp List.not_mem_nil
  | leaf id l rest ih =>
    exact Contents.shaped_append.mpr ⟨Leaf.shaped id l, ih (Contents.stored_append.mp h).2⟩
  | scope head inside rest ihi ihr =>
    simp only [contents, ScopeHead.node, Contents.stored_append, Contents.shaped_append,
      Contents.shaped_node] at h ⊢
    exact ⟨⟨ihi h.1.1, wellShaped_scope h.1.1 head⟩, ihr h.2⟩
  | branch j c condition b body rest ihc ihb ihr =>
    simp only [contents, ScopeHead.node, Junction.branch, Contents.stored_append,
      Contents.stored_node, Contents.shaped_append, Contents.shaped_node,
      Contents.shaped_number] at h ⊢
    obtain ⟨⟨⟨⟨-, hc, hcnode⟩, hb, hbnode⟩, -⟩, hr⟩ := h
    exact ⟨⟨⟨⟨trivial, ihc hc, wellShaped_scope hc c⟩, ihb hb, wellShaped_scope hb b⟩,
      ⟨isScope_pair hcnode hbnode, by simp⟩⟩, ihr hr⟩
  | fork j c condition b body a o otherwise rest ihc ihb iho ihr =>
    simp only [contents, ScopeHead.node, Junction.branch, Junction.alternative,
      Contents.stored_append, Contents.stored_node, Contents.shaped_append, Contents.shaped_node,
      Contents.shaped_number] at h ⊢
    obtain ⟨⟨⟨⟨⟨-, hc, hcnode⟩, hb, hbnode⟩, -⟩, ⟨-, ho, honode⟩, -⟩, hr⟩ := h
    refine ⟨⟨⟨⟨⟨trivial, ihc hc, wellShaped_scope hc c⟩, ihb hb, wellShaped_scope hb b⟩,
      ⟨isScope_pair hcnode hbnode, by simp⟩⟩,
      ⟨trivial, iho ho, wellShaped_scope ho o⟩, ?_⟩, ihr hr⟩
    exact ⟨List.forall_mem_singleton.mpr ⟨_, _, _, honode⟩, by simp⟩
  | loop j c condition b body rest ihc ihb ihr =>
    simp only [contents, ScopeHead.node, Junction.loop, Contents.stored_append,
      Contents.stored_node, Contents.shaped_append, Contents.shaped_node,
      Contents.shaped_number] at h ⊢
    obtain ⟨⟨⟨⟨-, hc, hcnode⟩, hb, hbnode⟩, -⟩, hr⟩ := h
    exact ⟨⟨⟨⟨trivial, ihc hc, wellShaped_scope hc c⟩, ihb hb, wellShaped_scope hb b⟩,
      ⟨isScope_pair hcnode hbnode, by simp⟩⟩, ihr hr⟩

/-- **Every block of a stored forest is reached from the row.** -/
theorem reached {F : Forest} (h : F.contents.Stored store) : F.contents.ReachedFrom store F.tops := by
  induction F with
  | nil => exact fun _ hid => absurd hid List.not_mem_nil
  | leaf id l rest ih =>
    obtain ⟨hl, hr⟩ := Contents.stored_append.mp h
    exact Contents.reachedFrom_append.mpr ⟨(Leaf.reached hl).mono (by simp), (ih hr).mono (by simp)⟩
  | scope head inside rest ihi ihr =>
    simp only [contents, Contents.stored_append, ScopeHead.node, Contents.stored_node] at h
    obtain ⟨⟨hi, hnode⟩, hr⟩ := h
    exact Contents.reachedFrom_append.mpr
      ⟨((ihi hi).enclose hnode).mono (by simp), (ihr hr).mono (by simp)⟩
  | branch j c condition b body rest ihc ihb ihr =>
    simp only [contents, Contents.stored_append, Junction.branch, ScopeHead.node,
      Contents.stored_node] at h
    obtain ⟨⟨⟨⟨-, hc, hcnode⟩, hb, hbnode⟩, hj⟩, hr⟩ := h
    have hbranch := Contents.ReachedFrom.junction j.index hj rfl ((ihc hc).enclose hcnode)
      ((ihb hb).enclose hbnode)
    exact Contents.reachedFrom_append.mpr ⟨hbranch.mono (by simp), (ihr hr).mono (by simp)⟩
  | fork j c condition b body a o otherwise rest ihc ihb iho ihr =>
    simp only [contents, Contents.stored_append, Junction.branch, Junction.alternative,
      ScopeHead.node, Contents.stored_node] at h
    obtain ⟨⟨⟨⟨⟨-, hc, hcnode⟩, hb, hbnode⟩, hj⟩, ⟨-, ho, honode⟩, ha⟩, hr⟩ := h
    have hbranch := Contents.ReachedFrom.junction j.index hj rfl ((ihc hc).enclose hcnode)
      ((ihb hb).enclose hbnode)
    have hbody := ((iho ho).enclose honode).below ⟨_, ha, .head _⟩
    have halternative := Contents.reachedFrom_append.mpr ⟨Contents.reachedFrom_append.mpr
      ⟨Contents.reachedFrom_number a.index, hbody⟩,
      Contents.reachedFrom_node (.alternative a.location o.id a.index) (.head _)⟩
    exact Contents.reachedFrom_append.mpr ⟨Contents.reachedFrom_append.mpr
      ⟨hbranch.mono (by simp), halternative.mono (by simp)⟩, (ihr hr).mono (by simp)⟩
  | loop j c condition b body rest ihc ihb ihr =>
    simp only [contents, Contents.stored_append, Junction.loop, ScopeHead.node,
      Contents.stored_node] at h
    obtain ⟨⟨⟨⟨-, hc, hcnode⟩, hb, hbnode⟩, hj⟩, hr⟩ := h
    have hloop := Contents.ReachedFrom.junction j.index hj rfl ((ihc hc).enclose hcnode)
      ((ihb hb).enclose hbnode)
    exact Contents.reachedFrom_append.mpr ⟨hloop.mono (by simp), (ihr hr).mono (by simp)⟩

end Forest

end Stored

/-! ## Leaves -/

/-- Is the block the block of a leaf? -/
def Block.isLeaf : Block → Bool
  | .expression _ | .reference .. | .call .. | .cast .. | .assembly _ => true
  | .scope .. | .branch .. | .alternative .. | .loop .. => false

/-- The blocks of leaves come from the leaves. -/
def Contents.Leafy (c : Contents) : Prop :=
  ∀ p ∈ c.nodes, p.2.isLeaf = true → ∃ id, ∃ l ∈ c.leaves, p ∈ l.nodes id ∧ l.nodes id ⊆ c.nodes

theorem Contents.Leafy.append {c d : Contents} (hc : c.Leafy) (hd : d.Leafy) : (c ++ d).Leafy := by
  intro p hp hleaf
  rcases List.mem_append.mp hp with hp | hp
  · obtain ⟨id, l, hl, hmem, hsub⟩ := hc p hp hleaf
    exact ⟨id, l, List.mem_append_left _ hl, hmem, fun q hq => List.mem_append_left _ (hsub hq)⟩
  · obtain ⟨id, l, hl, hmem, hsub⟩ := hd p hp hleaf
    exact ⟨id, l, List.mem_append_right _ hl, hmem, fun q hq => List.mem_append_right _ (hsub hq)⟩

theorem Contents.leafy_number (index : Nat) : (Contents.number index).Leafy :=
  fun _ hp => absurd hp List.not_mem_nil

theorem Contents.leafy_node (id : BlockId) {block : Block} (h : block.isLeaf = false) :
    (Contents.node id block).Leafy := by
  intro p hp hleaf
  obtain rfl := List.mem_singleton.mp hp
  rw [h] at hleaf
  cases hleaf

/-- **The blocks of leaves come from the leaves of a forest.** -/
theorem Forest.leafy (F : Forest) : F.contents.Leafy := by
  induction F with
  | nil => exact fun _ hp => absurd hp List.not_mem_nil
  | leaf id l rest ih => exact .append (fun p hp _ => ⟨id, l, .head _, hp, List.Subset.refl _⟩) ih
  | scope head inside rest ihi ihr => exact (ihi.append (Contents.leafy_node _ rfl)).append ihr
  | branch j c condition b body rest ihc ihb ihr =>
    exact ((((Contents.leafy_number _).append (ihc.append (Contents.leafy_node _ rfl))).append
      (ihb.append (Contents.leafy_node _ rfl))).append (Contents.leafy_node _ rfl)).append ihr
  | fork j c condition b body a o otherwise rest ihc ihb iho ihr =>
    exact (((((Contents.leafy_number _).append (ihc.append (Contents.leafy_node _ rfl))).append
      (ihb.append (Contents.leafy_node _ rfl))).append (Contents.leafy_node _ rfl)).append
      (((Contents.leafy_number _).append (iho.append (Contents.leafy_node _ rfl))).append
        (Contents.leafy_node _ rfl))).append ihr
  | loop j c condition b body rest ihc ihb ihr =>
    exact ((((Contents.leafy_number _).append (ihc.append (Contents.leafy_node _ rfl))).append
      (ihb.append (Contents.leafy_node _ rfl))).append (Contents.leafy_node _ rfl)).append ihr

end StackCompiler
