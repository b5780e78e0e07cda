import StackCompiler.Proofs.Execution.Labels

/-!
# The code of a body does what its blocks do

The lines of a forest are a segment of code: scopes are the segments of their blocks, branches choose
between segments and loops repeat them.

* `runs_scope`, `runs_branch`, `runs_fork`, `runs_loop`: what single blocks of a row do.
* **`Forest.segment`**: the lines of a forest do what its blocks do.
* `RunsBody`, **`runsBody_of_parseChars`**: running the lines of a function body and running its
  blocks is the same.
-/

namespace StackCompiler

open Relation

/-! ## Blocks of a row -/

section Rows

variable {World : Type} {leaf : LeafMeaning World} {store : Store} {id : BlockId}
  {rest : List BlockId} {s s' : Machine World}

theorem runs_nil : Runs leaf store [] s s' ↔ s = s' := by
  constructor
  · intro h
    cases h
    rfl
  · rintro rfl
    exact .nil s

theorem runs_leaf {block : Block} (hblock : store.block? id = some block)
    (hcode : block.hasCode = true) :
    Runs leaf store (id :: rest) s s' ↔
      ∃ s₁, leaf (blockCode store id) s s₁ ∧ Runs leaf store rest s₁ s' := by
  constructor
  · intro h
    cases h with
    | leaf _ _ hleaf hrest => exact ⟨_, hleaf, hrest⟩
    | cast hblock' | scope hblock' | taken hblock' | skipped hblock' | otherwise hblock'
    | alternative hblock' | done hblock' | again hblock' =>
      rw [hblock] at hblock'
      cases hblock'
      cases hcode
  · rintro ⟨s₁, hleaf, hrest⟩
    exact .leaf hblock hcode hleaf hrest

theorem runs_cast {location : Location} {types : List Token}
    (hblock : store.block? id = some (.cast location types)) :
    Runs leaf store (id :: rest) s s' ↔ Runs leaf store rest s s' := by
  constructor
  · intro h
    cases h with
    | cast _ hrest => exact hrest
    | _ => simp_all [Block.hasCode]
  · exact .cast hblock

theorem runs_alternative {location : Location} {body : BlockId} {index : Nat}
    (hblock : store.block? id = some (.alternative location body index)) :
    Runs leaf store (id :: rest) s s' ↔ Runs leaf store rest s s' := by
  constructor
  · intro h
    cases h with
    | alternative _ hrest => exact hrest
    | _ => simp_all [Block.hasCode]
  · exact .alternative hblock

theorem runs_scope {bracket : Bracket} {location : Location} {children : List BlockId}
    (hblock : store.block? id = some (.scope bracket location children)) :
    Runs leaf store (id :: rest) s s' ↔
      ∃ s₁, Runs leaf store children s s₁ ∧ Runs leaf store rest s₁ s' := by
  constructor
  · intro h
    cases h with
    | scope hblock' hinside hrest =>
      rw [hblock] at hblock'
      cases hblock'
      exact ⟨_, hinside, hrest⟩
    | _ => simp_all [Block.hasCode]
  · rintro ⟨s₁, hinside, hrest⟩
    exact .scope hblock hinside hrest

/-- A scope alone does what its blocks do. -/
theorem runs_part {head : ScopeHead} {inside : List BlockId}
    (hblock : store.block? head.id = some (head.block inside)) :
    Runs leaf store [head.id] = Runs leaf store inside := by
  ext s s'
  rw [runs_scope hblock]
  simp only [runs_nil, exists_eq_right]

variable {location location' : Location} {condition body alternative instead : BlockId}
  {index index' : Nat}

theorem runs_branch (hblock : store.block? id = some (.branch location condition body none index)) :
    Runs leaf store (id :: rest) s s' ↔
      ∃ s₁, Chooses (Runs leaf store [condition]) (Runs leaf store [body]) Eq s s₁ ∧
        Runs leaf store rest s₁ s' := by
  constructor
  · intro h
    cases h with
    | taken hblock' hcondition htop hbody hrest =>
      rw [hblock] at hblock'
      cases hblock'
      exact ⟨_, ⟨_, hcondition, .inl ⟨htop, hbody⟩⟩, hrest⟩
    | skipped hblock' hcondition htop hrest =>
      rw [hblock] at hblock'
      cases hblock'
      exact ⟨_, ⟨_, hcondition, .inr ⟨htop, rfl⟩⟩, hrest⟩
    | _ => simp_all [Block.hasCode]
  · rintro ⟨s₂, ⟨s₁, hcondition, ⟨htop, hbody⟩ | ⟨htop, rfl⟩⟩, hrest⟩
    · exact .taken hblock hcondition htop hbody hrest
    · exact .skipped hblock hcondition htop hrest

theorem runs_fork
    (hblock : store.block? id = some (.branch location condition body (some alternative) index))
    (halternative : store.block? alternative = some (.alternative location' instead index')) :
    Runs leaf store (id :: alternative :: rest) s s' ↔
      ∃ s₁, Chooses (Runs leaf store [condition]) (Runs leaf store [body])
          (Runs leaf store [instead]) s s₁ ∧
        Runs leaf store rest s₁ s' := by
  constructor
  · intro h
    cases h with
    | taken hblock' hcondition htop hbody hrest =>
      rw [hblock] at hblock'
      cases hblock'
      exact ⟨_, ⟨_, hcondition, .inl ⟨htop, hbody⟩⟩, (runs_alternative halternative).mp hrest⟩
    | otherwise hblock' hcondition htop halternative' hinstead hrest =>
      rw [hblock] at hblock'
      cases hblock'
      rw [halternative] at halternative'
      cases halternative'
      exact ⟨_, ⟨_, hcondition, .inr ⟨htop, hinstead⟩⟩, (runs_alternative halternative).mp hrest⟩
    | _ => simp_all [Block.hasCode]
  · rintro ⟨s₂, ⟨s₁, hcondition, ⟨htop, hbody⟩ | ⟨htop, hinstead⟩⟩, hrest⟩
    · exact .taken hblock hcondition htop hbody (.alternative halternative hrest)
    · exact .otherwise hblock hcondition htop halternative hinstead
        (.alternative halternative hrest)

theorem runs_loop (hblock : store.block? id = some (.loop location condition body index)) :
    Runs leaf store (id :: rest) s s' ↔
      ∃ s₁, Loops (Runs leaf store [condition]) (Runs leaf store [body]) s s₁ ∧
        Runs leaf store rest s₁ s' := by
  constructor
  · intro h
    generalize hrow : id :: rest = row at h
    induction h with
    | done hblock' hcondition htop hrest =>
      cases hrow
      rw [hblock] at hblock'
      cases hblock'
      exact ⟨_, .done hcondition htop, hrest⟩
    | again hblock' hcondition htop hbody _ _ _ ih =>
      cases hrow
      rw [hblock] at hblock'
      cases hblock'
      obtain ⟨s₁, hloops, hrest⟩ := ih rfl
      exact ⟨s₁, .again hcondition htop hbody hloops, hrest⟩
    | _ => simp_all [Block.hasCode]
  · rintro ⟨s₁, hloops, hrest⟩
    induction hloops with
    | done hcondition htop => exact .done hblock hcondition htop hrest
    | again hcondition htop hbody _ ih => exact .again hblock hcondition htop hbody (ih hrest)

end Rows

/-! ## Leaves -/

section Leaves

variable {store : Store}

/-- The code of an operator contains no jump. -/
theorem isPlain_operatorCode (operator : Operator) :
    (operator.code.all fun i => (code i).isPlain) = true := by
  cases operator with
  | syscall arguments =>
    revert arguments
    decide
  | _ => rfl

theorem isPlain_expressionLines (token : Token) :
    ∀ line ∈ expressionLines token, line.isPlain = true := by
  intro line hline
  unfold expressionLines at hline
  split at hline
  · next operator _ =>
    obtain ⟨i, hi, rfl⟩ := List.mem_map.mp hline
    exact List.all_eq_true.mp (isPlain_operatorCode operator) i hi
  · unfold literalLines at hline
    split at hline
    · rcases List.mem_pair.mp hline with rfl | rfl <;> rfl
    · cases hline
  · cases hline

/-- **The code of a leaf**: the remark of a token and lines without jumps and labels. -/
def IsLeafCode (lines : List Line) : Prop :=
  ∃ r plain, lines = .remark r :: plain ∧ r.isToken = true ∧ ∀ x ∈ plain, x.isPlain = true

/-- A leaf is a cast or has code. -/
theorem Leaf.code_of_lowers {id : BlockId} {l : Leaf}
    (hstored : (Contents.ofLeaf id l).Stored store) (hl : l.Lowers store) :
    (∃ location types, store.block? id = some (.cast location types) ∧ l.lines store = []) ∨
      ∃ block, store.block? id = some block ∧ block.hasCode = true ∧
        IsLeafCode (l.lines store) := by
  cases l with
  | expression token =>
    exact .inr ⟨_, hstored _ (.head _), rfl, _, _, rfl, rfl, isPlain_expressionLines token⟩
  | reference token target =>
    obtain ⟨d, hd⟩ := hl
    refine .inr ⟨_, hstored _ (.head _), rfl, ?_⟩
    rw [lines, hd]
    exact ⟨_, _, rfl, rfl, List.forall_mem_singleton.mpr rfl⟩
  | call location callee token target =>
    obtain ⟨d, hd, -⟩ := hl
    refine .inr ⟨_, hstored _ (.tail _ (.head _)), rfl, ?_⟩
    rw [lines, hd]
    exact ⟨_, callLines d, rfl, rfl, by simp [callLines, Line.isPlain]⟩
  | cast location types => exact .inl ⟨location, types, hstored _ (.head _), rfl⟩
  | assembly token =>
    exact .inr ⟨_, hstored _ (.head _), rfl, _, _, rfl, rfl, List.forall_mem_singleton.mpr rfl⟩

/-- The lines that the block of a leaf is lowered to. -/
theorem Leaf.blockCode_eq {id : BlockId} {l : Leaf}
    (hstored : (Contents.ofLeaf id l).Stored store) (hl : l.Lowers store) :
    blockCode store id = l.lines store :=
  congrArg Emitted.lines (Leaf.gives hstored hl 0 "")

end Leaves

/-! ## Forests -/

section Forests

variable {World : Type} {leaf : LeafMeaning World} {store : Store} {lines : List Line} {a : Nat}

theorem stops_of_line {line : Line} (h : lines[a]? = some line) (hline : line.isPlain = false) :
    Stops lines a := by
  intro found hfound
  rw [h] at hfound
  cases hfound
  exact hline

namespace Forest

/-- The code of a leaf before a forest ends where the forest begins. -/
theorem stops {F : Forest} (hstored : F.contents.Stored store)
    (hleaves : ∀ l ∈ F.contents.leaves, l.Lowers store) (hsits : Sits lines a (F.lines store))
    (hstops : Stops lines (a + (F.lines store).length)) : Stops lines a := by
  induction F generalizing a with
  | nil => exact hstops
  | leaf id l rest ih =>
    simp only [contents, Contents.stored_append, Contents.leaves_append,
      List.forall_mem_append] at hstored hleaves
    rw [Forest.lines, sits_append] at hsits
    rw [Forest.lines, List.length_append, ← Nat.add_assoc] at hstops
    have hrest := ih hstored.2 hleaves.2 hsits.2 hstops
    rcases Leaf.code_of_lowers hstored.1 (hleaves.1 l (.head _)) with
      ⟨-, -, -, hlines⟩ | ⟨-, -, -, r, plain, hlines, -, -⟩
    · rwa [hlines] at hrest
    · rw [hlines] at hsits
      exact stops_of_line hsits.1.1 rfl
  | scope head inside rest ihi ihr =>
    simp only [contents, ScopeHead.node, Contents.stored_append, Contents.leaves_append,
      List.forall_mem_append] at hstored hleaves
    rw [Forest.lines, sits_append] at hsits
    rw [Forest.lines, List.length_append, ← Nat.add_assoc] at hstops
    exact ihi hstored.1.1 hleaves.1.1 hsits.1 (ihr hstored.2 hleaves.2 hsits.2 hstops)
  | branch j c condition b body rest => exact stops_of_line hsits.1 rfl
  | fork j c condition b body a' o otherwise rest => exact stops_of_line hsits.1 rfl
  | loop j c condition b body rest => exact stops_of_line hsits.1 rfl

/-- **The lines of a forest do what its blocks do.** -/
theorem segment {F : Forest} (honce : LabelsOnce lines) (hstored : F.contents.Stored store)
    (hleaves : ∀ l ∈ F.contents.leaves, l.Lowers store) (hsits : Sits lines a (F.lines store))
    (hstops : Stops lines (a + (F.lines store).length)) :
    Segment leaf lines a (a + (F.lines store).length) (Runs leaf store F.tops) := by
  induction F generalizing a with
  | nil => exact (Segment.refl a).congr fun s s' => runs_nil.symm
  | leaf id l rest ih =>
    simp only [contents, Contents.stored_append, Contents.leaves_append,
      List.forall_mem_append] at hstored hleaves
    rw [Forest.lines, sits_append] at hsits
    rw [Forest.lines, List.length_append, ← Nat.add_assoc] at hstops ⊢
    have hrest := ih hstored.2 hleaves.2 hsits.2 hstops
    have hl := hleaves.1 l (.head _)
    rcases Leaf.code_of_lowers hstored.1 hl with
      ⟨location, types, hblock, hlines⟩ | ⟨block, hblock, hcode, r, plain, hlines, hr, hplain⟩
    · rw [hlines] at hrest ⊢
      exact hrest.congr fun s s' => (runs_cast hblock).symm
    · -- The step over a leaf takes plain lines as long as there are any, and none follow.
      have hbehind := Forest.stops hstored.2 hleaves.2 hsits.2 hstops
      have hcode' := Leaf.blockCode_eq hstored.1 hl
      rw [hlines] at hsits hbehind hrest hcode' ⊢
      refine ((Segment.ofLeaf hsits.1 hr hplain hbehind).seq hrest).congr fun s s' => ?_
      rw [← hcode']
      exact (runs_leaf hblock hcode).symm
  | scope head inside rest ihi ihr =>
    simp only [contents, ScopeHead.node, Contents.stored_append, Contents.stored_node,
      Contents.leaves_append, List.forall_mem_append] at hstored hleaves
    rw [Forest.lines, sits_append] at hsits
    rw [Forest.lines, List.length_append, ← Nat.add_assoc] at hstops ⊢
    have hbehind := Forest.stops hstored.2 hleaves.2 hsits.2 hstops
    have hinside := ihi hstored.1.1 hleaves.1.1 hsits.1 hbehind
    have hrest := ihr hstored.2 hleaves.2 hsits.2 hstops
    exact (hinside.seq hrest).congr fun s s' => (runs_scope hstored.1.2).symm
  | branch j c condition b body rest ihc ihb ihr =>
    simp only [contents, ScopeHead.node, Junction.branch, Contents.stored_append,
      Contents.stored_node, Contents.leaves_append, List.forall_mem_append] at hstored hleaves
    obtain ⟨⟨⟨⟨-, hc, hcnode⟩, hb, hbnode⟩, hj⟩, hr⟩ := hstored
    obtain ⟨⟨⟨⟨-, hlc, -⟩, hlb, -⟩, -⟩, hlr⟩ := hleaves
    rw [Forest.lines, sits_append] at hsits
    rw [Forest.lines, List.length_append, ← Nat.add_assoc] at hstops ⊢
    obtain ⟨hat, hsc, hsb⟩ := JunctionAt.of_sits hsits.1 rfl rfl
    have hcondition := ihc hc hlc hsc (stops_of_line hat.tested rfl)
    have hbody := ihb hb hlb hsb (stops_of_line hat.leave rfl)
    have hrest := ihr hr hlr hsits.2 hstops
    have hbranch := Segment.branch honce hsits.1 rfl rfl hcondition hbody
    rw [← runs_part hcnode, ← runs_part hbnode] at hbranch
    exact (hbranch.seq hrest).congr fun s s' => (runs_branch hj).symm
  | fork j c condition b body a' o otherwise rest ihc ihb iho ihr =>
    simp only [contents, ScopeHead.node, Junction.branch, Junction.alternative,
      Contents.stored_append, Contents.stored_node, Contents.leaves_append,
      List.forall_mem_append] at hstored hleaves
    obtain ⟨⟨⟨⟨⟨-, hc, hcnode⟩, hb, hbnode⟩, hj⟩, ⟨-, ho, honode⟩, ha⟩, hr⟩ := hstored
    obtain ⟨⟨⟨⟨⟨-, hlc, -⟩, hlb, -⟩, -⟩, ⟨-, hlo, -⟩, -⟩, hlr⟩ := hleaves
    rw [Forest.lines, sits_append, sits_append] at hsits
    rw [Forest.lines, List.length_append, List.length_append, ← Nat.add_assoc,
      ← Nat.add_assoc] at hstops ⊢
    obtain ⟨hsbranch, hsalternative, hsrest⟩ := hsits
    obtain ⟨hat, hsc, hsb⟩ := JunctionAt.of_sits hsbranch rfl rfl
    obtain ⟨-, -, hso, hafter⟩ := sits_alternativeLines.mp hsalternative
    have hcondition := ihc hc hlc hsc (stops_of_line hat.tested rfl)
    have hbody := ihb hb hlb hsb (stops_of_line hat.leave rfl)
    have hotherwise := iho ho hlo hso (stops_of_line hafter rfl)
    have hrest := ihr hr hlr hsrest hstops
    have hfork := Segment.fork honce hsbranch rfl hsalternative rfl rfl rfl hcondition hbody
      hotherwise
    rw [← runs_part hcnode, ← runs_part hbnode, ← runs_part honode] at hfork
    exact (hfork.seq hrest).congr fun s s' => (runs_fork hj ha).symm
  | loop j c condition b body rest ihc ihb ihr =>
    simp only [contents, ScopeHead.node, Junction.loop, Contents.stored_append,
      Contents.stored_node, Contents.leaves_append, List.forall_mem_append] at hstored hleaves
    obtain ⟨⟨⟨⟨-, hc, hcnode⟩, hb, hbnode⟩, hj⟩, hr⟩ := hstored
    obtain ⟨⟨⟨⟨-, hlc, -⟩, hlb, -⟩, -⟩, hlr⟩ := hleaves
    rw [Forest.lines, sits_append] at hsits
    rw [Forest.lines, List.length_append, ← Nat.add_assoc] at hstops ⊢
    obtain ⟨hat, hsc, hsb⟩ := JunctionAt.of_sits hsits.1 rfl rfl
    have hcondition := ihc hc hlc hsc (stops_of_line hat.tested rfl)
    have hbody := ihb hb hlb hsb (stops_of_line hat.leave rfl)
    have hrest := ihr hr hlr hsits.2 hstops
    have hloop := Segment.loop honce hsits.1 rfl rfl hcondition hbody
    rw [← runs_part hcnode, ← runs_part hbnode] at hloop
    exact (hloop.seq hrest).congr fun s s' => (runs_loop hj).symm

end Forest

end Forests

/-! ## Functions -/

/-- **The lines of a unit run the body of a function like its blocks.** The lines of the body stand
between the beginning and the end of the function, and the machine can get from before the first to
behind the last of them, from one state to another, exactly if the blocks of the body lead from the
one to the other. -/
def RunsBody (options : EmitOptions) (store : Store) (unit : List DefId) (d : Definition)
    (f : Function) : Prop :=
  ∃ before body behind : List Line,
    let lines := before ++ (prologue d f.isEntry ++ (body ++ (epilogue f.isEntry ++ behind)))
    let start := before.length + (prologue d f.isEntry).length
    (lowerUnit options store (emitLevels store {}) unit).Gives lines () ∧
    (lowerBlock store (emitLevels store {}) f.body).Gives body () ∧
    ∀ (World : Type) (leaf : LeafMeaning World) (s s' : Machine World),
      ReflTransGen (Step leaf lines) (start, s) (start + body.length, s') ↔
        Runs leaf store [f.body] s s'

section Functions

variable {World : Type} {leaf : LeafMeaning World} {lines : List Line} {a : Nat}

/-- The machine does not come back from the end of a function. -/
theorem eq_of_walk_epilogue {isEntry : Bool} (h : Sits lines a (epilogue isEntry)) {n : Nat}
    {s s' : Machine World} (hwalk : Walk (Step leaf lines) n (a, s) (a, s')) : s = s' := by
  obtain ⟨r, target, source, hremark, hr, hmov⟩ : ∃ r target source,
      lines[a]? = some (.remark r) ∧ r.isToken = false ∧
        lines[a + 1]? = some (code (.mov target source)) := by
    cases isEntry
    · exact ⟨_, _, _, h.1, rfl, h.2.1⟩
    · exact ⟨_, _, _, h.1, rfl, h.2.1⟩
  cases hwalk with
  | zero => rfl
  | succ hstep hwalk =>
    obtain rfl := (Forced.remark hremark hr).2 _ hstep
    cases hwalk with
    | succ hstep _ => cases hstep <;> simp_all

theorem stops_epilogue {isEntry : Bool} (h : Sits lines a (epilogue isEntry)) : Stops lines a := by
  cases isEntry
  · exact stops_of_line h.1 rfl
  · exact stops_of_line h.1 rfl

/-- **The lines between the beginning and the end of a function do what the blocks do.** -/
theorem Forest.reaches_iff {store : Store} {F : Forest} {before start behind : List Line}
    {isEntry : Bool}
    (honce : LabelsOnce (before ++ (start ++ (F.lines store ++ (epilogue isEntry ++ behind)))))
    (hstored : F.contents.Stored store) (hleaves : ∀ l ∈ F.contents.leaves, l.Lowers store)
    (s s' : Machine World) :
    ReflTransGen
        (Step leaf (before ++ (start ++ (F.lines store ++ (epilogue isEntry ++ behind)))))
        (before.length + start.length, s)
        (before.length + start.length + (F.lines store).length, s') ↔
      Runs leaf store F.tops s s' := by
  have hsits := sits_of_append (before ++ start) (F.lines store ++ epilogue isEntry) behind
  rw [List.append_assoc, List.append_assoc, List.length_append, sits_append] at hsits
  obtain ⟨hbody, hend⟩ := hsits
  have hsegment : Segment leaf _ _ _ _ :=
    Forest.segment honce hstored hleaves hbody (stops_epilogue hend)
  constructor
  · intro h
    obtain ⟨n, hwalk⟩ := reflTransGen_iff_walk.mp h
    obtain ⟨s₁, m, -, hruns, hwalk⟩ := hsegment.walk n s _ (.inr (Nat.le_refl _)) hwalk
    rwa [← eq_of_walk_epilogue hend hwalk]
  · exact hsegment.run s s'

end Functions

namespace UnitTree

variable {before after : Store} {unit : List DefId} {chunks : List Chunk}

/-- The lines of a unit, around those of a function. -/
theorem exists_lines_eq {options : EmitOptions} {id : DefId} {d : Definition} {f : Function}
    {chunk : Chunk} {head : ScopeHead} {inside : Forest} (hmem : (id, chunk) ∈ unit.zip chunks)
    (hd : after.def? id = some d) (hf : d.body = .function f)
    (hbody : chunk.body = some (head, inside)) (hkept : (options.strip && !d.used) = false) :
    ∃ first last, unitLines options after unit chunks = first ++ (prologue d f.isEntry ++
      (inside.lines after ++ (epilogue f.isEntry ++ last))) := by
  obtain ⟨first, last, hsplit⟩ := List.append_of_mem hmem
  let others (ps : List (DefId × Chunk)) : List Line :=
    ps.flatMap fun p => (after.def? p.1).elim [] fun d => p.2.lines options after d
  refine ⟨preamble options.entry ++ (others first ++ [.inSection d.sectionName]),
    .blank :: (others last ++ postamble), ?_⟩
  rw [unitLines, definitionLines, hsplit, List.flatMap_append, List.flatMap_cons, hd,
    Option.elim_some, Chunk.lines, hkept]
  simp [Chunk.ownLines, hf, hbody, others]

/-- **The lines of a unit run the bodies of its functions like their blocks.** -/
theorem runsBody (h : UnitTree before after unit chunks) (options : EmitOptions) {id : DefId}
    {d : Definition} {f : Function} (hid : id ∈ unit) (hd : after.def? id = some d)
    (hf : d.body = .function f) (hkept : (options.strip && !d.used) = false) :
    RunsBody options after unit d f := by
  obtain ⟨i, chunk, head, inside, hi, hchunk, hbody, hhead⟩ := h.function_at hid hd hf
  have hmem := List.mem_of_getElem? hchunk
  have hstored := h.stored_chunk hmem
  have hleaves := h.lowers hchunk
  have hlength := h.length_nodes_le hmem
  simp only [Chunk.contents, hbody, ScopeHead.node, Contents.stored_append, Contents.stored_node,
    Contents.leaves_append, List.forall_mem_append, Contents.nodes_append,
    List.length_append] at hstored hleaves hlength
  have hheight : inside.height ≤ after.blocks.size :=
    Nat.le_trans inside.height_le (Nat.le_of_add_left_le hlength)
  have hlevels : emitLevels after {} = after.blocks.size + 1 := Nat.mul_one _
  have hzip : (id, chunk) ∈ unit.zip chunks :=
    List.mem_iff_getElem?.mpr ⟨i, List.getElem?_zip_eq_some.mpr ⟨hi, hchunk⟩⟩
  obtain ⟨first, last, hlines⟩ := exists_lines_eq hzip hd hf hbody hkept
  have hgives := h.gives options (show after.blocks.size ≤ emitLevels after {} by omega)
  have honce := h.labelsOnce options
  rw [hlines] at hgives honce
  refine ⟨first, inside.lines after, last, hgives, ?_, fun World leaf s s' => ?_⟩
  · rw [hlevels, hhead]
    exact (getBlock_gives hstored.1).silent_bind (Forest.gives hstored.2 hleaves.2 hheight)
  · rw [hhead, runs_part hstored.1]
    exact Forest.reaches_iff honce hstored.2 hleaves.2 s s'

end UnitTree

/-- **The code of every function body that is accepted does what its blocks do**, whatever the code
of its leaves does to the machine. -/
theorem runsBody_of_parseChars {options : ParseOptions} {store : Store} {source : List Char}
    {unit : List DefId} (h : (parseChars options store source).outcome = .ok unit)
    (emit : EmitOptions) {id : DefId} {d : Definition} {f : Function} (hid : id ∈ unit)
    (hd : (parseChars options store source).store.def? id = some d) (hf : d.body = .function f)
    (hkept : (emit.strip && !d.used) = false) :
    RunsBody emit (parseChars options store source).store unit d f := by
  have hparsed : parseChars options store source =
      ⟨.ok unit, (parseChars options store source).store⟩ := by rw [← h]
  obtain ⟨chunks, hunit⟩ := unitTree_of_parseChars hparsed
  exact hunit.runsBody emit hid hd hf hkept

/-- A function with a chain of branches in a loop. -/
theorem runsBody_chain :
    let parsed := parseChars {} (Store.empty 100)
      "func f { 9 loop (dup) { if (dup) { dec } elif [1] { drop } else { 0 } } }".toList
    ∃ d f, parsed.store.def? ⟨0, 0⟩ = some d ∧ d.body = .function f ∧
      RunsBody {} parsed.store [⟨0, 0⟩] d f := by
  intro parsed
  have hfunction : (parsed.store.def? ⟨0, 0⟩).map Definition.isFunction = some true := by
    decide +kernel
  obtain ⟨d, hd, hfunction⟩ := Option.map_eq_some_iff.mp hfunction
  obtain ⟨f, hf⟩ : ∃ f, d.body = .function f := by
    unfold Definition.isFunction at hfunction
    split at hfunction
    · next f hf => exact ⟨f, hf⟩
    · cases hfunction
  exact ⟨d, f, hd, hf, runsBody_of_parseChars (by decide +kernel) {} (.head _) hd hf rfl⟩

end StackCompiler
