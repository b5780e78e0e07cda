import StackCompiler.Proofs.Chain.Plain
import StackCompiler.Proofs.Layout.Compiling

/-!
# Code and numbers of tokens

Code generation shows the number of a token in one place only: the remark before the code of the
token. So units that differ in locations and numbers of tokens only have the same code, up to these
remarks.

* `Line.plain`: a line without the number of a token.
* `EmitsPlain`: parts of code generation that write the same lines up to such numbers.
* **`lowerUnit_plain`**: the code of a unit.
-/

namespace StackCompiler

/-! ## Lines -/

def Remark.plain : Remark → Remark
  | .token name _ => .token name 0
  | other => other

/-- **A line without the number of a token** in its remark. -/
def Line.plain : Line → Line
  | .remark r => .remark r.plain
  | other => other

/-- What comes out of code generation, without locations and numbers of tokens. -/
def Emitted.plain {α β : Type} (f : α → β) (emitted : Emitted α) : Emitted β :=
  { emitted.bare f with lines := emitted.lines.map Line.plain }

/-- **The second part writes the lines of the first one without the numbers of tokens**, on a device
that takes any number of bytes. -/
def EmitsPlain {α β : Type} (f : α → β) (e : Emission α) (e' : Emission β) : Prop :=
  ∀ reason, (e ⟨none, reason⟩).device = ⟨none, reason⟩ ∧
    e' ⟨none, reason⟩ = (e ⟨none, reason⟩).plain f

namespace EmitsPlain

variable {α β γ δ : Type} {f : α → β} {g : γ → δ}

theorem bind {e : Emission α} {e' : Emission β} {k : α → Emission γ} {k' : β → Emission δ}
    (he : EmitsPlain f e e') (hk : ∀ a, EmitsPlain g (k a) (k' (f a))) :
    EmitsPlain g (e >>= k) (e' >>= k') := by
  intro reason
  obtain ⟨hdevice, hplain⟩ := he reason
  change (Emission.bind e k _).device = _ ∧ Emission.bind e' k' _ = (Emission.bind e k _).plain g
  simp only [Emission.bind, hplain, Emitted.plain, Emitted.bare, hdevice]
  cases (e ⟨none, reason⟩).outcome with
  | ok a =>
    obtain ⟨hdevice', hplain'⟩ := hk a reason
    refine ⟨hdevice', ?_⟩
    simp only [hplain', Emitted.plain, Emitted.bare, List.map_append]
  | error cause => exact ⟨rfl, rfl⟩

theorem pure {a : α} {b : β} (h : f a = b) : EmitsPlain f (Pure.pure a) (Pure.pure b) := by
  intro reason
  subst h
  exact ⟨rfl, rfl⟩

theorem write {lines lines' : List Line} (h : lines.map Line.plain = lines') :
    EmitsPlain id (Emission.write lines) (.write lines') := by
  intro reason
  subst h
  exact ⟨rfl, rfl⟩

theorem fail (cause : EmitFault) {location location' : Option Location}
    (h : location.map (fun _ => Location.start) = location') :
    EmitsPlain f (.fail cause location) (.fail cause location') := by
  intro reason
  subst h
  exact ⟨rfl, rfl⟩

theorem ite {p : Prop} [Decidable p] {e₁ e₂ : Emission α} {e₁' e₂' : Emission β}
    (h₁ : EmitsPlain f e₁ e₁') (h₂ : EmitsPlain f e₂ e₂') :
    EmitsPlain f (if p then e₁ else e₂) (if p then e₁' else e₂') := by
  split
  · exact h₁
  · exact h₂

theorem forM {ε : Type} {k k' : ε → Emission PUnit} (hk : ∀ x, EmitsPlain id (k x) (k' x))
    (xs : List ε) : EmitsPlain id (xs.forM k) (xs.forM k') := by
  induction xs with
  | nil => exact .pure rfl
  | cons x xs ih => exact (hk x).bind fun _ => ih

end EmitsPlain

/-! ## Lowering -/

section Lowering

variable (store : Store)

theorem getDef_plain (id : DefId) :
    EmitsPlain Definition.plain (getDef store id) (getDef store.plain id) := by
  rw [getDef, getDef, Store.def?_plain]
  cases store.def? id with
  | none => exact .fail _ rfl
  | some d => exact .pure rfl

theorem getBlock_plain (id : BlockId) :
    EmitsPlain Block.plain (getBlock store id) (getBlock store.plain id) := by
  rw [getBlock, getBlock, Store.block?_plain]
  cases store.block? id with
  | none => exact .fail _ rfl
  | some block => exact .pure rfl

theorem getScope_plain (target : BlockId) (role : String) :
    EmitsPlain id (getScope store target role) (getScope store.plain target role) := by
  refine (getBlock_plain store target).bind fun block => ?_
  cases block with
  | scope bracket location children => exact .pure rfl
  | _ => exact .fail _ rfl

theorem getAlternative_plain (next : Option BlockId) :
    EmitsPlain id (getAlternative store next) (getAlternative store.plain next) := by
  cases next with
  | none => exact .pure rfl
  | some target =>
    refine (getBlock_plain store target).bind fun block => ?_
    cases block with
    | alternative location body index => exact .pure rfl
    | _ => exact .fail _ rfl

/-- **The number of a token stands in its remark only.** -/
theorem lowerExpression_plain (token : Token) :
    EmitsPlain id (lowerExpression token) (lowerExpression token.plain) := by
  refine (EmitsPlain.write (by rfl)).bind fun _ => ?_
  rw [show token.plain.kind = token.kind from rfl]
  split
  · exact .write (List.map_map ..)
  · next type _ =>
    rw [show literalImmediate? token.plain type = literalImmediate? token type from rfl]
    split
    · exact .write (by rfl)
    · exact .fail _ rfl
  · exact .fail _ rfl

theorem Definition.label_plain (d : Definition) : d.plain.label = d.label := by
  obtain ⟨_, _, _, _, _, body⟩ := d
  cases body <;> rfl

theorem lowerReference_plain (token : Token) (target : DefId) :
    EmitsPlain id (lowerReference store token target)
      (lowerReference store.plain token.plain target) := by
  refine (getDef_plain store target).bind fun d => ?_
  rw [d.label_plain]
  exact .write (by rfl)

theorem lowerCall_plain (callee : BlockId) :
    EmitsPlain id (lowerCall store callee) (lowerCall store.plain callee) := by
  refine (getBlock_plain store callee).bind fun block => ?_
  cases block with
  | reference token target =>
    refine (getDef_plain store target).bind fun d => ?_
    rw [d.label_plain, d.isFunction_plain]
    exact .ite (.write (by rfl)) (.fail _ rfl)
  | _ => exact .fail _ rfl

/-- **The code of a block**, up to numbers of tokens. -/
theorem lowerBlock_plain (levels : Nat) (target : BlockId) :
    EmitsPlain id (lowerBlock store levels target) (lowerBlock store.plain levels target) := by
  induction levels generalizing target with
  | zero => exact .fail _ rfl
  | succ levels ih =>
    have hblocks (ids : List BlockId) :
        EmitsPlain id (ids.forM (lowerBlock store levels))
          (ids.forM (lowerBlock store.plain levels)) := .forM ih ids
    refine (getBlock_plain store target).bind fun block => ?_
    cases block with
    | expression token => exact lowerExpression_plain token
    | reference token target => exact lowerReference_plain store token target
    | call location callee => exact lowerCall_plain store callee
    | cast location types => exact .pure rfl
    | scope bracket location children => exact hblocks children
    | branch location condition body next index =>
      refine (getScope_plain store condition _).bind fun conditions => ?_
      refine (getScope_plain store body _).bind fun bodies => ?_
      refine (getAlternative_plain store next).bind fun alternative => ?_
      refine (EmitsPlain.write (by rfl)).bind fun _ => (hblocks conditions).bind fun _ => ?_
      exact (EmitsPlain.write (by rfl)).bind fun _ => (hblocks bodies).bind fun _ => .write (by rfl)
    | alternative location body index =>
      refine (getScope_plain store body _).bind fun bodies => ?_
      exact (EmitsPlain.write (by rfl)).bind fun _ => (hblocks bodies).bind fun _ => .write (by rfl)
    | loop location condition body index =>
      refine (getScope_plain store condition _).bind fun conditions => ?_
      refine (getScope_plain store body _).bind fun bodies => ?_
      refine (EmitsPlain.write (by rfl)).bind fun _ => (hblocks conditions).bind fun _ => ?_
      exact (EmitsPlain.write (by rfl)).bind fun _ => (hblocks bodies).bind fun _ => .write (by rfl)
    | assembly token => exact .write (by rfl)

theorem lowerFunction_plain (levels : Nat) (d : Definition) (f : Function) :
    EmitsPlain id (lowerFunction store levels d f)
      (lowerFunction store.plain levels d.plain f.plain) := by
  have hprologue : (prologue d f.isEntry).map Line.plain = prologue d.plain f.isEntry := by
    simp only [prologue, d.label_plain]
    split <;> rfl
  have hepilogue : (epilogue f.isEntry).map Line.plain = epilogue f.isEntry := by
    rw [epilogue]
    split <;> rfl
  refine (EmitsPlain.write hprologue).bind fun _ => ?_
  refine (getScope_plain store f.body _).bind fun body => ?_
  exact (EmitsPlain.forM (lowerBlock_plain store levels) body).bind fun _ => .write hepilogue

theorem lowerMemory_plain (d : Definition) (capacity : Token) :
    EmitsPlain id (lowerMemory d capacity) (lowerMemory d.plain capacity.plain) := by
  rw [lowerMemory, lowerMemory, d.label_plain,
    show capacityBytes? capacity.plain = capacityBytes? capacity from rfl]
  split
  · exact .write (by rfl)
  · exact .fail _ rfl

theorem lowerDef_plain (options : EmitOptions) (levels : Nat) (target : DefId) :
    EmitsPlain id (lowerDef options store levels target)
      (lowerDef options store.plain levels target) := by
  refine (getDef_plain store target).bind fun d => ?_
  refine .ite (.pure rfl) ((EmitsPlain.write (by rfl)).bind fun _ => ?_)
  rw [show d.plain.body = d.body.plain from rfl]
  cases d.body with
  | function f => exact (lowerFunction_plain store levels d f).bind fun _ => .write (by rfl)
  | memory capacity => exact (lowerMemory_plain d capacity).bind fun _ => .write (by rfl)
  | string literal =>
    simp only [DefinitionBody.plain, d.label_plain]
    exact (EmitsPlain.write (by rfl)).bind fun _ => .write (by rfl)

/-- **The code of a unit**, up to numbers of tokens. -/
theorem lowerUnit_plain (options : EmitOptions) (levels : Nat) (unit : List DefId) :
    EmitsPlain id (lowerUnit options store levels unit)
      (lowerUnit options store.plain levels unit) := by
  refine (EmitsPlain.write (by rfl)).bind fun _ => ?_
  exact (EmitsPlain.forM (lowerDef_plain store options levels) unit).bind fun _ => .write (by rfl)

end Lowering

end StackCompiler
