import StackCompiler.Pipeline.Compilation
import StackCompiler.Proofs.Grammar.Recognition
import StackCompiler.Proofs.Layout.Mirror

/-!
# Compiling without locations

The outline and the code of a unit name no location. So two texts with the same words, however they
are laid out and whatever their comments say, are compiled to the same outline and the same bytes, or
refused for the same kind of reason.

* `outline_bare`: the outline of a unit.
* `EmissionMirrors`, **`lowerUnit_mirrors`**: the code of a unit.
* **`compile_eq_of_words`**: whole sources.
-/

namespace StackCompiler

/-! ## Outlines -/

section Outline

variable (up : Nat) (store : Store)

theorem joinedTexts_bare (tokens : List Token) :
    joinedTexts (tokens.map Token.bare) = joinedTexts tokens := by
  rw [joinedTexts, joinedTexts, List.map_map]
  rfl

theorem Block.children_bare (block : Block) : block.bare.children = block.children := by
  cases block <;> rfl

theorem Definition.keyword_bare (d : Definition) : d.bare.keyword = d.keyword := by
  obtain ⟨_, _, _, _, _, body⟩ := d
  cases body <;> rfl

theorem alternativeIndex?_bare (next : Option BlockId) :
    alternativeIndex? (store.bare up) next = alternativeIndex? store next := by
  cases next with
  | none => rfl
  | some id =>
    rw [alternativeIndex?, alternativeIndex?, Option.bind_some, Option.bind_some, Store.block?_bare]
    cases store.block? id with
    | none => rfl
    | some block => cases block <;> rfl

theorem blockLine_bare (block : Block) :
    blockLine (store.bare up) block.bare = blockLine store block := by
  cases block with
  | reference token target =>
    have hkeyword : ((store.bare up).def? target).map Definition.keyword =
        (store.def? target).map Definition.keyword := by
      rw [Store.def?_bare, Option.map_map]
      exact congrArg (Option.map · (store.def? target)) (funext Definition.keyword_bare)
    delta blockLine
    dsimp only [Block.bare]
    rw [hkeyword]
    rfl
  | cast location types => exact congrArg ("as " ++ ·) (joinedTexts_bare types)
  | branch location condition body next index =>
    delta blockLine
    dsimp only [Block.bare]
    rw [alternativeIndex?_bare]
  | _ => rfl

theorem outlineBlock_bare (levels depth : Nat) (id : BlockId) :
    outlineBlock (store.bare up) levels depth id = outlineBlock store levels depth id := by
  induction levels generalizing depth id with
  | zero => rfl
  | succ levels ih =>
    rw [outlineBlock, outlineBlock, Store.block?_bare]
    cases store.block? id with
    | none => rfl
    | some block =>
      simp only [Option.map_some, blockLine_bare, Block.children_bare]
      congr 2
      funext child
      exact ih (depth + 1) child

theorem outlineDef_bare (d : Definition) :
    outlineDef (store.bare up) d.bare = outlineDef store d := by
  have hlevels : outlineLevels (store.bare up) = outlineLevels store := by
    simp [outlineLevels, Store.bare]
  have hclause (keyword : String) (types : List Token) :
      clauseLines keyword (types.map Token.bare) = clauseLines keyword types := by
    simp only [clauseLines, List.isEmpty_map, joinedTexts_bare]
  obtain ⟨location, ident, place, used, index, body⟩ := d
  cases body with
  | function f =>
    simp only [outlineDef, Definition.bare, DefinitionBody.bare, Function.bare, hlevels, hclause,
      outlineBlock_bare]
    rfl
  | memory capacity => rfl
  | string literal => rfl

/-- **The outline of a unit names no location.** -/
theorem outline_bare (unit : List DefId) : outline (store.bare up) unit = outline store unit := by
  have hline : outlineLines (store.bare up) unit = outlineLines store unit := by
    simp only [outlineLines]
    congr 2
    funext id
    rw [Store.def?_bare]
    cases store.def? id with
    | none => rfl
    | some d => exact outlineDef_bare up store d
  rw [outline, outline, hline]

end Outline

/-! ## Code -/

/-- An error of code generation without its location. -/
def EmitError.bare (e : EmitError) : EmitError := ⟨e.cause, e.location.map fun _ => .start⟩

/-- What comes out of code generation, without locations. -/
def Emitted.bare {α β : Type} (f : α → β) (emitted : Emitted α) : Emitted β :=
  ⟨emitted.lines, emitted.device, match emitted.outcome with
    | .ok a => .ok (f a)
    | .error e => .error e.bare⟩

/-- **The second part writes the same lines as the first one.** -/
def EmissionMirrors {α β : Type} (f : α → β) (e : Emission α) (e' : Emission β) : Prop :=
  ∀ device, e' device = (e device).bare f

namespace EmissionMirrors

variable {α β γ δ : Type} {f : α → β} {g : γ → δ}

theorem bind {e : Emission α} {e' : Emission β} {k : α → Emission γ} {k' : β → Emission δ}
    (he : EmissionMirrors f e e') (hk : ∀ a, EmissionMirrors g (k a) (k' (f a))) :
    EmissionMirrors g (e >>= k) (e' >>= k') := by
  intro device
  change Emission.bind e' k' device = (Emission.bind e k device).bare g
  simp only [Emission.bind, he device, Emitted.bare]
  cases (e device).outcome with
  | ok a => simp only [hk a _, Emitted.bare]
  | error cause => rfl

theorem pure {a : α} {b : β} (h : f a = b) : EmissionMirrors f (Pure.pure a) (Pure.pure b) := by
  intro device
  subst h
  rfl

theorem write (lines : List Line) : EmissionMirrors id (Emission.write lines) (.write lines) := by
  intro device
  simp only [Emission.write]
  split <;> rfl

theorem fail (cause : EmitFault) {location location' : Option Location}
    (h : location.map (fun _ => Location.start) = location') :
    EmissionMirrors f (.fail cause location) (.fail cause location') := by
  intro device
  subst h
  rfl

theorem ite {p : Prop} [Decidable p] {e₁ e₂ : Emission α} {e₁' e₂' : Emission β}
    (h₁ : EmissionMirrors f e₁ e₁') (h₂ : EmissionMirrors f e₂ e₂') :
    EmissionMirrors f (if p then e₁ else e₂) (if p then e₁' else e₂') := by
  split
  · exact h₁
  · exact h₂

theorem forM {ε : Type} {k k' : ε → Emission PUnit} (hk : ∀ x, EmissionMirrors id (k x) (k' x))
    (xs : List ε) : EmissionMirrors id (xs.forM k) (xs.forM k') := by
  induction xs with
  | nil => exact .pure rfl
  | cons x xs ih => exact (hk x).bind fun _ => ih

end EmissionMirrors

section Lowering

variable (up : Nat) (store : Store)

theorem getDef_mirrors (id : DefId) :
    EmissionMirrors Definition.bare (getDef store id) (getDef (store.bare up) id) := by
  rw [getDef, getDef, Store.def?_bare]
  cases store.def? id with
  | none => exact .fail _ rfl
  | some d => exact .pure rfl

theorem getBlock_mirrors (id : BlockId) :
    EmissionMirrors Block.bare (getBlock store id) (getBlock (store.bare up) id) := by
  rw [getBlock, getBlock, Store.block?_bare]
  cases store.block? id with
  | none => exact .fail _ rfl
  | some block => exact .pure rfl

theorem getScope_mirrors (target : BlockId) (role : String) :
    EmissionMirrors id (getScope store target role) (getScope (store.bare up) target role) := by
  refine (getBlock_mirrors up store target).bind fun block => ?_
  cases block with
  | scope bracket location children => exact .pure rfl
  | _ => exact .fail _ rfl

theorem getAlternative_mirrors (next : Option BlockId) :
    EmissionMirrors id (getAlternative store next) (getAlternative (store.bare up) next) := by
  cases next with
  | none => exact .pure rfl
  | some target =>
    refine (getBlock_mirrors up store target).bind fun block => ?_
    cases block with
    | alternative location body index => exact .pure rfl
    | _ => exact .fail _ rfl

theorem lowerExpression_mirrors (token : Token) :
    EmissionMirrors id (lowerExpression token) (lowerExpression token.bare) := by
  refine (EmissionMirrors.write _).bind fun _ => ?_
  rw [Token.kind_bare]
  split
  · exact .write _
  · next type _ =>
    rw [show literalImmediate? token.bare type = literalImmediate? token type from rfl]
    split
    · exact .write _
    · exact .fail _ rfl
  · exact .fail _ rfl

theorem Definition.label_bare (d : Definition) : d.bare.label = d.label := by
  obtain ⟨_, _, _, _, _, body⟩ := d
  cases body <;> rfl

theorem lowerReference_mirrors (token : Token) (target : DefId) :
    EmissionMirrors id (lowerReference store token target)
      (lowerReference (store.bare up) token.bare target) := by
  refine (getDef_mirrors up store target).bind fun d => ?_
  rw [d.label_bare]
  exact .write _

theorem lowerCall_mirrors (callee : BlockId) :
    EmissionMirrors id (lowerCall store callee) (lowerCall (store.bare up) callee) := by
  refine (getBlock_mirrors up store callee).bind fun block => ?_
  cases block with
  | reference token target =>
    refine (getDef_mirrors up store target).bind fun d => ?_
    rw [d.label_bare, d.isFunction_bare]
    exact .ite (.write _) (.fail _ rfl)
  | _ => exact .fail _ rfl

/-- **The code of a block names no location.** -/
theorem lowerBlock_mirrors (levels : Nat) (target : BlockId) :
    EmissionMirrors id (lowerBlock store levels target)
      (lowerBlock (store.bare up) levels target) := by
  induction levels generalizing target with
  | zero => exact .fail _ rfl
  | succ levels ih =>
    have hblocks (ids : List BlockId) :
        EmissionMirrors id (ids.forM (lowerBlock store levels))
          (ids.forM (lowerBlock (store.bare up) levels)) := .forM ih ids
    refine (getBlock_mirrors up store target).bind fun block => ?_
    cases block with
    | expression token => exact lowerExpression_mirrors token
    | reference token target => exact lowerReference_mirrors up store token target
    | call location callee => exact lowerCall_mirrors up store callee
    | cast location types => exact .pure rfl
    | scope bracket location children => exact hblocks children
    | branch location condition body next index =>
      refine (getScope_mirrors up store condition _).bind fun conditions => ?_
      refine (getScope_mirrors up store body _).bind fun bodies => ?_
      refine (getAlternative_mirrors up store next).bind fun alternative => ?_
      refine (EmissionMirrors.write _).bind fun _ => (hblocks conditions).bind fun _ => ?_
      exact (EmissionMirrors.write _).bind fun _ => (hblocks bodies).bind fun _ => .write _
    | alternative location body index =>
      refine (getScope_mirrors up store body _).bind fun bodies => ?_
      exact (EmissionMirrors.write _).bind fun _ => (hblocks bodies).bind fun _ => .write _
    | loop location condition body index =>
      refine (getScope_mirrors up store condition _).bind fun conditions => ?_
      refine (getScope_mirrors up store body _).bind fun bodies => ?_
      refine (EmissionMirrors.write _).bind fun _ => (hblocks conditions).bind fun _ => ?_
      exact (EmissionMirrors.write _).bind fun _ => (hblocks bodies).bind fun _ => .write _
    | assembly token => exact .write _

theorem lowerFunction_mirrors (levels : Nat) (d : Definition) (f : Function) :
    EmissionMirrors id (lowerFunction store levels d f)
      (lowerFunction (store.bare up) levels d.bare f.bare) := by
  have hprologue : prologue d.bare f.isEntry = prologue d f.isEntry := by
    simp only [prologue, d.label_bare]
  unfold lowerFunction
  rw [show f.bare.isEntry = f.isEntry from rfl, hprologue]
  refine (EmissionMirrors.write _).bind fun _ => ?_
  refine (getScope_mirrors up store f.body _).bind fun body => ?_
  exact (EmissionMirrors.forM (lowerBlock_mirrors up store levels) body).bind fun _ => .write _

theorem lowerMemory_mirrors (d : Definition) (capacity : Token) :
    EmissionMirrors id (lowerMemory d capacity) (lowerMemory d.bare capacity.bare) := by
  rw [lowerMemory, lowerMemory, d.label_bare,
    show capacityBytes? capacity.bare = capacityBytes? capacity from rfl]
  split
  · exact .write _
  · exact .fail _ rfl

theorem lowerDef_mirrors (options : EmitOptions) (levels : Nat) (target : DefId) :
    EmissionMirrors id (lowerDef options store levels target)
      (lowerDef options (store.bare up) levels target) := by
  refine (getDef_mirrors up store target).bind fun d => ?_
  refine .ite (.pure rfl) ((EmissionMirrors.write _).bind fun _ => ?_)
  have hbody : d.bare.body = d.body.bare := rfl
  rw [hbody]
  cases d.body with
  | function f =>
    exact (lowerFunction_mirrors up store levels d f).bind fun _ => .write _
  | memory capacity => exact (lowerMemory_mirrors d capacity).bind fun _ => .write _
  | string literal =>
    simp only [DefinitionBody.bare, d.label_bare]
    exact (EmissionMirrors.write _).bind fun _ => .write _

/-- **The code of a unit names no location.** -/
theorem lowerUnit_mirrors (options : EmitOptions) (levels : Nat) (unit : List DefId) :
    EmissionMirrors id (lowerUnit options store levels unit)
      (lowerUnit options (store.bare up) levels unit) := by
  refine (EmissionMirrors.write _).bind fun _ => ?_
  exact (EmissionMirrors.forM (lowerDef_mirrors up store options levels) unit).bind fun _ => .write _

end Lowering

/-! ## Sources -/

/-- **The kind of an error**, by stage. -/
inductive CompileErrorKind where
  | lex (kind : LexErrorKind)
  | parse (kind : ParseErrorKind)
  | emit (kind : EmitErrorKind)
  deriving DecidableEq, Repr

def CompileError.kind : CompileError → CompileErrorKind
  | .lex e => .lex e.cause.kind
  | .parse e => .parse e.cause.kind
  | .emit e => .emit e.cause.kind

/-- Both sources are compiled, to units with the same outline, or both are refused, for the same kind
of reason. -/
def SameOutcome : Except CompileError Compilation → Except CompileError Compilation → Prop
  | .ok c, .ok c' => c.outlineText = c'.outlineText
  | .error e, .error e' => e.kind = e'.kind
  | _, _ => False

/-- The image of a parsed text. -/
def Parsed.bare (parsed : Parsed) : Parsed :=
  ⟨match parsed.outcome with
    | .ok unit => .ok unit
    | .error e => .error e.bare, parsed.store.bare 0⟩

theorem parseTokens_mirrors (options : ParseOptions) (tokens : List Token) :
    Mirrors 0 id (parseTokens options tokens none)
      (parseTokens options (tokens.map Token.bare) none) :=
  (run_mirrors 0 options .definition tokens).bind fun _ => Mirrors.get.bind fun _ => .pure rfl

theorem parseLexer_bare (options : ParseOptions) (store : Store) {lexer : Lexer}
    {tokens : List Token} (h : lexer.tokenize.1 = .ok tokens) :
    (parseLexer options store lexer).bare =
      match parseTokens options (tokens.map Token.bare) none ⟨store.bare 0, [], 0⟩ with
      | .ok unit w => ⟨.ok unit, w.store⟩
      | .error e w => ⟨.error e, w.store⟩ := by
  obtain ⟨herror, htokens⟩ := tokenize_eq_ok.mp h
  have hmirror := (parseTokens_mirrors options tokens ⟨store, [], 0⟩).resolve_right (by simp)
  rw [show (⟨store.bare 0, [], 0⟩ : Workspace) = Workspace.bare 0 ⟨store, [], 0⟩ from rfl, hmirror]
  simp only [parseLexer, herror, htokens]
  cases parseTokens options tokens none ⟨store, [], 0⟩ <;> rfl

/-- **Texts with the same words are parsed to the same unit**, up to locations. -/
theorem parseLexer_bare_eq (options : ParseOptions) (store : Store) {source source' : List Char}
    {tokens tokens' : List Token} (h : (Lexer.ofChars source).tokenize.1 = .ok tokens)
    (h' : (Lexer.ofChars source').tokenize.1 = .ok tokens')
    (hwords : tokens.map Token.word = tokens'.map Token.word) :
    (parseLexer options store (.ofChars source)).bare =
      (parseLexer options store (.ofChars source')).bare := by
  have hnumbered := Lexer.run_numbered source
  have hnumbered' := Lexer.run_numbered source'
  rw [(tokenize_eq_ok.mp h).2] at hnumbered
  rw [(tokenize_eq_ok.mp h').2] at hnumbered'
  rw [parseLexer_bare options store h, parseLexer_bare options store h',
    map_bare_eq hnumbered hnumbered' hwords]

theorem emitUnit_bare (options : EmitOptions) (store : Store) (unit : List DefId)
    (device : Device) :
    (emitUnit options (store.bare 0) unit device).bytes = (emitUnit options store unit device).bytes ∧
      (emitUnit options (store.bare 0) unit device).outcome =
        (emitUnit options store unit device).outcome.mapError EmitError.bare := by
  have hlevels : emitLevels (store.bare 0) device = emitLevels store device := by
    simp [emitLevels, Store.bare]
  have hlower := lowerUnit_mirrors 0 store options (emitLevels store device) unit device
  simp only [emitUnit, hlevels, hlower]
  refine ⟨rfl, ?_⟩
  simp only [Emitted.bare]
  cases (lowerUnit options store (emitLevels store device) unit device).outcome <;> rfl

/-- **Stores that differ in locations are lowered to the same bytes**, or both refused for the same
reason. -/
theorem emitUnit_same (options : EmitOptions) {store store' : Store}
    (h : store.bare 0 = store'.bare 0) (unit : List DefId) (device : Device) :
    (emitUnit options store unit device).bytes = (emitUnit options store' unit device).bytes ∧
      ((emitUnit options store unit device).outcome = .ok () ∧
          (emitUnit options store' unit device).outcome = .ok () ∨
        ∃ e e', (emitUnit options store unit device).outcome = .error e ∧
          (emitUnit options store' unit device).outcome = .error e' ∧ e.cause = e'.cause) := by
  obtain ⟨hbytes, houtcome⟩ := emitUnit_bare options store unit device
  obtain ⟨hbytes', houtcome'⟩ := emitUnit_bare options store' unit device
  rw [h] at hbytes houtcome
  refine ⟨hbytes.symm.trans hbytes', ?_⟩
  have hsame := houtcome.symm.trans houtcome'
  cases hw : (emitUnit options store unit device).outcome with
  | ok _ =>
    cases hw' : (emitUnit options store' unit device).outcome with
    | ok _ => exact .inl ⟨rfl, rfl⟩
    | error e' =>
      rw [hw, hw'] at hsame
      cases hsame
  | error e =>
    cases hw' : (emitUnit options store' unit device).outcome with
    | ok _ =>
      rw [hw, hw'] at hsame
      cases hsame
    | error e' =>
      rw [hw, hw'] at hsame
      have he : EmitError.bare e = EmitError.bare e' := Except.error.inj hsame
      injection he with hcause
      exact .inr ⟨e, e', rfl, rfl, hcause⟩

theorem ofChars_of_ofBytes {source : List UInt8} {lexer : Lexer}
    (h : Lexer.ofBytes source = .ok lexer) : ∃ text, lexer = .ofChars text := by
  unfold Lexer.ofBytes at h
  split at h
  · cases h
    exact ⟨_, rfl⟩
  · cases h

/-- **Layout and comments never change the program.** Two sources that are read into the same words
are both compiled, to the same outline and the same bytes, or both refused for the same kind of
reason. -/
theorem compile_eq_of_words (settings : Settings) (device : Device) (times times' : StageTimes)
    {source source' : List UInt8} {lexer lexer' : Lexer} {tokens tokens' : List Token}
    (hlexer : Lexer.ofBytes source = .ok lexer) (hlexer' : Lexer.ofBytes source' = .ok lexer')
    (htokens : lexer.tokenize.1 = .ok tokens) (htokens' : lexer'.tokenize.1 = .ok tokens')
    (hwords : tokens.map Token.word = tokens'.map Token.word) :
    SameOutcome (compile settings source device times).outcome
        (compile settings source' device times').outcome ∧
      (compile settings source device times).bytes =
        (compile settings source' device times').bytes := by
  obtain ⟨text, rfl⟩ := ofChars_of_ofBytes hlexer
  obtain ⟨text', rfl⟩ := ofChars_of_ofBytes hlexer'
  have hparsed := parseLexer_bare_eq settings.parseOptions (.empty Store.defaultMaxNodes) htokens
    htokens' hwords
  simp only [compile, Compilation.ofBytes, hlexer, hlexer']
  generalize parseLexer settings.parseOptions (.empty Store.defaultMaxNodes) (.ofChars text) = p
    at hparsed ⊢
  generalize parseLexer settings.parseOptions (.empty Store.defaultMaxNodes) (.ofChars text') = p'
    at hparsed ⊢
  obtain ⟨outcome, store⟩ := p
  obtain ⟨outcome', store'⟩ := p'
  cases outcome with
  | error e =>
    cases outcome' with
    | error e' =>
      have he : e.bare = e'.bare := by
        injection hparsed with houtcome
        injection houtcome
      have hkind : e.cause.kind = e'.cause.kind := by
        have hcause : e.cause.bare = e'.cause.bare := congrArg ParseError.cause he
        rw [← e.cause.kind_bare, hcause, e'.cause.kind_bare]
      exact ⟨congrArg CompileErrorKind.parse hkind, rfl⟩
    | ok unit' => cases hparsed
  | ok unit =>
    cases outcome' with
    | error e' => cases hparsed
    | ok unit' =>
      obtain ⟨rfl, hstore⟩ : unit = unit' ∧ store.bare 0 = store'.bare 0 := by
        injection hparsed with houtcome hstore
        injection houtcome with hunit
        exact ⟨hunit, hstore⟩
      obtain ⟨hbytes, houtcome⟩ := emitUnit_same settings.emitOptions hstore unit device
      refine ⟨?_, hbytes⟩
      simp only [Compilation.emit]
      rcases houtcome with ⟨hok, hok'⟩ | ⟨e, e', herror, herror', hcause⟩
      · have houtline : outline store unit = outline store' unit := by
          rw [← outline_bare 0, hstore, outline_bare]
        rw [hok, hok']
        exact houtline
      · rw [herror, herror']
        exact congrArg (fun cause : EmitFault => CompileErrorKind.emit cause.kind) hcause

/-- A program with and without comments. -/
theorem compile_eq_comments :
    SameOutcome (compile {} (Utf8.encode "func main {1}".toList) {}).outcome
        (compile {} (Utf8.encode "func main // x\n{/**/1}".toList) {}).outcome ∧
      (compile {} (Utf8.encode "func main {1}".toList) {}).bytes =
        (compile {} (Utf8.encode "func main // x\n{/**/1}".toList) {}).bytes :=
  @compile_eq_of_words {} {} {} {} _ _ (.ofChars "func main {1}".toList)
    (.ofChars "func main // x\n{/**/1}".toList) (Lexer.ofChars "func main {1}".toList).run.tokens
    (Lexer.ofChars "func main // x\n{/**/1}".toList).run.tokens (by decide +kernel)
    (by decide +kernel) (by decide +kernel) (by decide +kernel) (by decide +kernel)

end StackCompiler
