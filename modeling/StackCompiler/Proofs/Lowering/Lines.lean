import StackCompiler.Assembly.Output
import StackCompiler.Proofs.Token.Faithful
import StackCompiler.Proofs.Tree.Forest

/-!
# The lines of a forest

On a device that takes any number of bytes, lowering a stored forest succeeds and writes lines that
are given by recursion over the forest.

* `Emission.Gives`: a part of code generation that succeeds.
* `Leaf.lines`, `Forest.lines`: the lines of leaves and forests.
* **`Forest.gives`**: lowering a forest writes its lines.
-/

namespace StackCompiler

/-! ## Emissions that succeed -/

namespace Emission

/-- **On a device that takes everything, the emission succeeds** and writes some lines. -/
def Gives {α : Type} (e : Emission α) (lines : List Line) (a : α) : Prop :=
  ∀ reason, e ⟨none, reason⟩ = ⟨lines, ⟨none, reason⟩, .ok a⟩

section Laws

variable {α β : Type} {e : Emission α} {f : α → Emission β} {lines lines' : List Line} {a : α}
  {b : β}

theorem Gives.bind (he : e.Gives lines a) (hf : (f a).Gives lines' b) :
    (e >>= f).Gives (lines ++ lines') b := by
  intro reason
  change Emission.bind e f _ = _
  rw [Emission.bind, he reason]
  simp only
  rw [hf reason]

/-- The lines that are written are the only ones. -/
theorem Gives.lines_eq (h : e.Gives lines a) (hother : e.Gives lines' a) : lines = lines' :=
  congrArg Emitted.lines ((h "").symm.trans (hother ""))

theorem Gives.run (h : e.Gives lines a) : e.Gives (e {}).lines a := by
  have hlines : (e {}).lines = lines := congrArg Emitted.lines (h "")
  rwa [hlines]

theorem Gives.pure (a : α) : Gives (Pure.pure a) [] a := fun _ => rfl

theorem Gives.write (lines : List Line) : Gives (write lines) lines () := fun _ => rfl

/-- A part that writes nothing, and what follows. -/
theorem Gives.silent_bind (he : e.Gives [] a) (hf : (f a).Gives lines b) :
    (e >>= f).Gives lines b := he.bind hf

theorem Gives.forM_cons {f : α → Emission Unit} {rest : List α} (hf : (f a).Gives lines ())
    (hrest : (rest.forM f).Gives lines' ()) : ((a :: rest).forM f).Gives (lines ++ lines') () :=
  hf.bind hrest

end Laws

end Emission

open Emission Instruction Register

/-! ## Leaves -/

/-- The lines that push the value of a literal. -/
def literalLines (token : Token) (type : NumberType) : List Line :=
  match literalImmediate? token type with
  | some value => [code (mov rax.whole (.immediate value)), code (push rax.whole)]
  | none => []

/-- The lines of an operator or literal, behind its remark. -/
def expressionLines (token : Token) : List Line :=
  match token.kind with
  | .operator operator => operator.code.map code
  | .number type => literalLines token type
  | _ => []

/-- The lines that call a function, behind their remark. -/
def callLines (d : Definition) : List Line :=
  [code (mov rax.whole rsp.whole), code (mov rsp.whole (.cell .returnTop)), code (call d.label),
   code (mov (.cell .returnTop) rsp.whole), code (mov rsp.whole rax.whole)]

/-- **The lines of a leaf.** -/
def Leaf.lines (store : Store) : Leaf → List Line
  | .expression token => .remark (.token token.kind.name token.index) :: expressionLines token
  | .reference token target =>
    (store.def? target).elim [] fun d =>
      [.remark (.token "ident" token.index), code (push (.address d.label))]
  | .call _ _ token target =>
    (store.def? target).elim [] fun d => .remark (.token "call" token.index) :: callLines d
  | .cast .. => []
  | .assembly token =>
    [.remark (.token "asm" token.index),
     .verbatim (String.ofList (Utf8.decodeLossy (literalBytes token)))]

/-- **A leaf can be lowered**: literals carry their values, names resolve, and what is called is a
function. -/
def Leaf.Lowers (store : Store) : Leaf → Prop
  | .expression token => token.kind.isExpression = true ∧ token.Faithful
  | .reference _ target => ∃ d, store.def? target = some d
  | .call _ _ _ target => ∃ d, store.def? target = some d ∧ d.isFunction = true
  | .cast .. | .assembly _ => True

section Leaves

variable {store : Store}

theorem getBlock_gives {id : BlockId} {block : Block} (h : store.block? id = some block) :
    (getBlock store id).Gives [] block := by
  rw [getBlock, h]
  exact .pure block

theorem getDef_gives {id : DefId} {d : Definition} (h : store.def? id = some d) :
    (getDef store id).Gives [] d := by
  rw [getDef, h]
  exact .pure d

theorem literalImmediate?_isSome {token : Token} (hfaithful : token.Faithful) {type : NumberType}
    (hkind : token.kind = .number type) : ∃ value, literalImmediate? token type = some value := by
  rw [Token.Faithful, hkind] at hfaithful
  cases type with
  | signed width =>
    obtain ⟨n, hn⟩ := hfaithful
    exact ⟨.decimal n, by simp [literalImmediate?, Token.int?, hn]⟩
  | unsigned width =>
    obtain ⟨n, hn⟩ := hfaithful
    exact ⟨.decimal n, by simp [literalImmediate?, Token.uint?, hn]⟩
  | float32 =>
    obtain ⟨bits, hbits⟩ := hfaithful
    exact ⟨_, by simp only [literalImmediate?, Token.float?, hbits]; rfl⟩
  | float64 =>
    obtain ⟨bits, hbits⟩ := hfaithful
    exact ⟨_, by simp only [literalImmediate?, Token.float?, hbits]; rfl⟩

theorem lowerExpression_gives {token : Token} (hkind : token.kind.isExpression = true)
    (hfaithful : token.Faithful) :
    (lowerExpression token).Gives
      (.remark (.token token.kind.name token.index) :: expressionLines token) () := by
  refine (Gives.write [_]).bind ?_
  cases hk : token.kind with
  | operator operator => exact .write _
  | number type =>
    obtain ⟨value, hvalue⟩ := literalImmediate?_isSome hfaithful hk
    simp only [literalLines, hvalue]
    exact .write _
  | _ =>
    rw [hk] at hkind
    cases hkind

/-- **Lowering a leaf writes its lines.** -/
theorem Leaf.gives {id : BlockId} {l : Leaf} (hstored : (Contents.ofLeaf id l).Stored store)
    (hl : l.Lowers store) (levels : Nat) :
    (lowerBlock store (levels + 1) id).Gives (l.lines store) () := by
  cases l with
  | expression token =>
    exact (getBlock_gives (hstored _ (.head _))).silent_bind (lowerExpression_gives hl.1 hl.2)
  | reference token target =>
    obtain ⟨d, hd⟩ := hl
    rw [Leaf.lines, hd]
    refine (getBlock_gives (hstored _ (.head _))).silent_bind ?_
    exact (getDef_gives hd).silent_bind (.write _)
  | call location callee token target =>
    obtain ⟨d, hd, hfunction⟩ := hl
    rw [Leaf.lines, hd]
    refine (getBlock_gives (hstored _ (.tail _ (.head _)))).silent_bind ?_
    refine (getBlock_gives (hstored _ (.head _))).silent_bind ?_
    refine (getDef_gives hd).silent_bind ?_
    rw [if_pos hfunction]
    exact .write _
  | cast location types => exact (getBlock_gives (hstored _ (.head _))).silent_bind (.pure ())
  | assembly token => exact (getBlock_gives (hstored _ (.head _))).silent_bind (.write _)

end Leaves

/-! ## Branches and loops -/

/-- Where a branch goes if its condition does not hold. -/
def skipLabel (alternative : Option Nat) (index : Nat) : Label :=
  match alternative with
  | some number => .control .prior .alternativeBody number
  | none => .control .after .branchBody index

/-- Where a branch goes behind its body. -/
def leaveLabel (alternative : Option Nat) (index : Nat) : Label :=
  match alternative with
  | some number => .control .after .alternativeBody number
  | none => .control .after .branchBody index

/-- The lines that branches and loops have in common, given those of condition and body: what the
condition leaves decides whether the body is skipped, and behind the body the branch or loop is
left. -/
def junctionLines (remark : Remark) (condition body : Piece) (index : Nat) (skip leave : Label)
    (conditionLines bodyLines : List Line) : List Line :=
  [.remark remark, mark .prior condition index] ++ (conditionLines ++
    ((mark .after condition index :: testLines skip ++ [mark .prior body index]) ++ (bodyLines ++
    [code (jump leave), mark .after body index])))

/-- **The lines of a branch**, given those of its condition and body. -/
def branchLines (condition body : List Line) (alternative : Option Nat) (index : Nat) : List Line :=
  junctionLines .branch .branchCondition .branchBody index (skipLabel alternative index)
    (leaveLabel alternative index) condition body

/-- **The lines of an alternative**, given those of its body. -/
def alternativeLines (body : List Line) (index : Nat) : List Line :=
  [.remark .alternative, mark .prior .alternativeBody index] ++
    (body ++ [mark .after .alternativeBody index])

/-- **The lines of a loop**, given those of its condition and body. -/
def loopLines (condition body : List Line) (index : Nat) : List Line :=
  junctionLines .loop .loopCondition .loopBody index (.control .after .loopBody index)
    (.control .prior .loopCondition index) condition body

section Junctions

variable {condition body : Emission Unit} {lines lines' : List Line}

theorem lowerBranch_gives (hcondition : condition.Gives lines ()) (hbody : body.Gives lines' ())
    (alternative : Option Nat) (index : Nat) :
    (lowerBranch condition body alternative index).Gives
      (branchLines lines lines' alternative index) () := by
  cases alternative with
  | none =>
    exact (Gives.write _).bind (hcondition.bind ((Gives.write _).bind (hbody.bind (.write _))))
  | some number =>
    exact (Gives.write _).bind (hcondition.bind ((Gives.write _).bind (hbody.bind (.write _))))

theorem lowerAlternative_gives (hbody : body.Gives lines ()) (index : Nat) :
    (lowerAlternative body index).Gives (alternativeLines lines index) () :=
  (Gives.write _).bind (hbody.bind (.write _))

theorem lowerLoop_gives (hcondition : condition.Gives lines ()) (hbody : body.Gives lines' ())
    (index : Nat) :
    (lowerLoop condition body index).Gives (loopLines lines lines' index) () :=
  (Gives.write _).bind (hcondition.bind ((Gives.write _).bind (hbody.bind (.write _))))

end Junctions

/-! ## Forests -/

namespace Forest

/-- **The lines of a forest.** -/
def lines (store : Store) : Forest → List Line
  | .nil => []
  | .leaf _ l rest => l.lines store ++ rest.lines store
  | .scope _ inside rest => inside.lines store ++ rest.lines store
  | .branch j _ condition _ body rest =>
    branchLines (condition.lines store) (body.lines store) none j.index ++ rest.lines store
  | .fork j _ condition _ body a _ otherwise rest =>
    branchLines (condition.lines store) (body.lines store) (some a.index) j.index ++
      (alternativeLines (otherwise.lines store) a.index ++ rest.lines store)
  | .loop j _ condition _ body rest =>
    loopLines (condition.lines store) (body.lines store) j.index ++ rest.lines store

/-- How many levels of blocks there are. -/
def height : Forest → Nat
  | .nil => 0
  | .leaf _ _ rest => max 1 rest.height
  | .scope _ inside rest => max (inside.height + 1) rest.height
  | .branch _ _ condition _ body rest | .loop _ _ condition _ body rest =>
    max (max condition.height body.height + 1) rest.height
  | .fork _ _ condition _ body _ _ otherwise rest =>
    max (max (max condition.height body.height) otherwise.height + 1) rest.height

/-- **A forest has no more levels than blocks.** -/
theorem height_le (F : Forest) : F.height ≤ F.contents.nodes.length := by
  induction F with
  | nil => exact Nat.le_refl 0
  | leaf id l rest ih =>
    have hl : 1 ≤ (l.nodes id).length := by cases l <;> simp [Leaf.nodes]
    simp only [height, contents, Contents.nodes_append, List.length_append, Contents.ofLeaf]
    omega
  | scope head inside rest ihi ihr =>
    simp [height, Contents.node]
    omega
  | branch j c condition b body rest ihc ihb ihr =>
    simp [height, Contents.node, Contents.number]
    omega
  | fork j c condition b body a o otherwise rest ihc ihb iho ihr =>
    simp [height, Contents.node, Contents.number]
    omega
  | loop j c condition b body rest ihc ihb ihr =>
    simp [height, Contents.node, Contents.number]
    omega

end Forest

section Forests

variable {store : Store}

theorem getScope_gives {head : ScopeHead} {inside : List BlockId}
    (h : store.block? head.id = some (head.block inside)) (role : String) :
    (getScope store head.id role).Gives [] inside :=
  (getBlock_gives h).silent_bind (.pure inside)

theorem getAlternative_gives {j : Junction} {body : BlockId}
    (h : store.block? j.id = some (.alternative j.location body j.index)) :
    (getAlternative store (some j.id)).Gives [] (some j.index) :=
  (getBlock_gives h).silent_bind (.pure (some j.index))

/-- **Lowering a forest writes its lines**, if as many levels are followed as it has. -/
theorem Forest.gives {F : Forest} {levels : Nat} (hstored : F.contents.Stored store)
    (hleaves : ∀ l ∈ F.contents.leaves, l.Lowers store) (hlevels : F.height ≤ levels) :
    (F.tops.forM (lowerBlock store levels)).Gives (F.lines store) () := by
  -- The level that a block uses up is given to the forests of its parts.
  induction F generalizing levels with
  | nil => exact .pure ()
  | leaf id l rest ih =>
    simp only [contents, Contents.stored_append, Contents.leaves_append, List.forall_mem_append,
      height, Nat.max_le] at hstored hleaves hlevels
    obtain ⟨levels, rfl⟩ : ∃ n, levels = n + 1 := Nat.exists_eq_add_one.mpr hlevels.1
    exact (Leaf.gives hstored.1 (hleaves.1 l (.head _)) levels).forM_cons
      (ih hstored.2 hleaves.2 hlevels.2)
  | scope head inside rest ihi ihr =>
    simp only [contents, ScopeHead.node, Contents.stored_append, Contents.stored_node,
      Contents.leaves_append, List.forall_mem_append, height, Nat.max_le] at hstored hleaves hlevels
    obtain ⟨⟨hi, hnode⟩, hr⟩ := hstored
    obtain ⟨⟨hli, -⟩, hlr⟩ := hleaves
    obtain ⟨levels, rfl⟩ : ∃ n, levels = n + 1 := Nat.exists_eq_add_one.mpr (by omega)
    have hinside := ihi hi hli (Nat.le_of_succ_le_succ hlevels.1)
    refine Gives.forM_cons ?_ (ihr hr hlr hlevels.2)
    exact (getBlock_gives hnode).silent_bind hinside
  | branch j c condition b body rest ihc ihb ihr =>
    simp only [contents, ScopeHead.node, Junction.branch, Contents.stored_append,
      Contents.stored_node, Contents.leaves_append, List.forall_mem_append, height,
      Nat.max_le] at hstored hleaves hlevels
    obtain ⟨⟨⟨⟨-, hc, hcnode⟩, hb, hbnode⟩, hj⟩, hr⟩ := hstored
    obtain ⟨⟨⟨⟨-, hlc, -⟩, hlb, -⟩, -⟩, hlr⟩ := hleaves
    obtain ⟨levels, rfl⟩ : ∃ n, levels = n + 1 := Nat.exists_eq_add_one.mpr (by omega)
    have hcondition := ihc hc hlc (show condition.height ≤ levels by omega)
    have hbody := ihb hb hlb (show body.height ≤ levels by omega)
    refine Gives.forM_cons ?_ (ihr hr hlr hlevels.2)
    refine (getBlock_gives hj).silent_bind ?_
    refine (getScope_gives hcnode _).silent_bind ((getScope_gives hbnode _).silent_bind ?_)
    exact (Gives.pure _).silent_bind (lowerBranch_gives hcondition hbody none j.index)
  | fork j c condition b body a o otherwise rest ihc ihb iho ihr =>
    simp only [contents, ScopeHead.node, Junction.branch, Junction.alternative,
      Contents.stored_append, Contents.stored_node, Contents.leaves_append, List.forall_mem_append,
      height, Nat.max_le] at hstored hleaves hlevels
    obtain ⟨⟨⟨⟨⟨-, hc, hcnode⟩, hb, hbnode⟩, hj⟩, ⟨-, ho, honode⟩, ha⟩, hr⟩ := hstored
    obtain ⟨⟨⟨⟨⟨-, hlc, -⟩, hlb, -⟩, -⟩, ⟨-, hlo, -⟩, -⟩, hlr⟩ := hleaves
    obtain ⟨levels, rfl⟩ : ∃ n, levels = n + 1 := Nat.exists_eq_add_one.mpr (by omega)
    have hcondition := ihc hc hlc (show condition.height ≤ levels by omega)
    have hbody := ihb hb hlb (show body.height ≤ levels by omega)
    have hotherwise := iho ho hlo (show otherwise.height ≤ levels by omega)
    refine Gives.forM_cons ?_ (Gives.forM_cons ?_ (ihr hr hlr hlevels.2))
    · refine (getBlock_gives hj).silent_bind ?_
      refine (getScope_gives hcnode _).silent_bind ((getScope_gives hbnode _).silent_bind ?_)
      exact (getAlternative_gives ha).silent_bind
        (lowerBranch_gives hcondition hbody (some a.index) j.index)
    · refine (getBlock_gives ha).silent_bind ?_
      exact (getScope_gives honode _).silent_bind (lowerAlternative_gives hotherwise a.index)
  | loop j c condition b body rest ihc ihb ihr =>
    simp only [contents, ScopeHead.node, Junction.loop, Contents.stored_append,
      Contents.stored_node, Contents.leaves_append, List.forall_mem_append, height,
      Nat.max_le] at hstored hleaves hlevels
    obtain ⟨⟨⟨⟨-, hc, hcnode⟩, hb, hbnode⟩, hj⟩, hr⟩ := hstored
    obtain ⟨⟨⟨⟨-, hlc, -⟩, hlb, -⟩, -⟩, hlr⟩ := hleaves
    obtain ⟨levels, rfl⟩ : ∃ n, levels = n + 1 := Nat.exists_eq_add_one.mpr (by omega)
    have hcondition := ihc hc hlc (show condition.height ≤ levels by omega)
    have hbody := ihb hb hlb (show body.height ≤ levels by omega)
    refine Gives.forM_cons ?_ (ihr hr hlr hlevels.2)
    refine (getBlock_gives hj).silent_bind ?_
    refine (getScope_gives hcnode _).silent_bind ((getScope_gives hbnode _).silent_bind ?_)
    exact lowerLoop_gives hcondition hbody j.index

end Forests

end StackCompiler
