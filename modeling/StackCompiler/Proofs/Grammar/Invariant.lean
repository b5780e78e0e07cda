import StackCompiler.Proofs.Grammar.Recognition

/-!
# Invariants of building

Building a text takes numbers, adds blocks, references and definitions, and changes blocks that are
no references. A property of workspaces that each of these steps keeps is kept by building as a
whole. Literals that are stored are tokens of the text, each of the kind that its place asks for.

* `Definition.Begun`: a definition as it is when it is added.
* `BuildInvariant`: a property that the steps keep.
* `Block.MadeFrom`, `DefinitionBody.MadeFrom`: literals that come from some source.
* `LiteralInvariant`: a property that the steps keep if literals come from some source.
* `Keeps`: building something keeps a property.
* **`LiteralInvariant.phrase`**, **`LiteralInvariant.definitions`**: phrases and texts keep an
  invariant.
-/

namespace StackCompiler

/-! ## Steps -/

/-- **A definition as it is when it is added**: it is used exactly if the program starts with it, and
the program starts with the function of a given name. -/
structure Definition.Begun (options : ParseOptions) (d : Definition) : Prop where
  used : d.used = d.isEntry
  isEntry : d.isEntry = (d.isFunction && d.ident.text == options.entry)

/-- The workspace with a reference, whose target is used from now on. -/
def Workspace.withReference (w : Workspace) (name : Token) (target : DefId) : Workspace :=
  { w with store := (w.markUsed target).store.withBlock (.reference name target) }

/-- **A property that every step of building keeps.** -/
structure BuildInvariant (options : ParseOptions) (P : Workspace → Prop) : Prop where
  /-- A number is taken. -/
  number : ∀ {w : Workspace}, P w → P { w with nextIndex := w.nextIndex + 1 }
  /-- A block is added that is no reference. -/
  block : ∀ {w : Workspace} {block : Block}, block.isReference = false → P w →
    P { w with store := w.store.withBlock block }
  /-- A reference is added. -/
  reference : ∀ {w : Workspace} {name : Token} {target : DefId},
    w.symbols.lookup name.text = some target → P w → P (w.withReference name target)
  /-- A block is changed that neither is nor becomes a reference. -/
  change : ∀ {w : Workspace} (id : BlockId) {f : Block → Block},
    (∀ block, block.isReference = true ∨ (f block).isReference = true → f block = block) → P w →
    P { w with store := w.store.modifyBlock id f }
  /-- A definition is added. -/
  definition : ∀ {w : Workspace} {d : Definition}, d.Begun options → P w →
    P ⟨w.store.withDef { d with index := w.symbols.length },
      w.symbols ++ [(d.ident.text, w.store.nextDef)], w.nextIndex⟩

/-- **The literal or operator that a block is made of** comes from some source, and is of the kind
that the block asks for. -/
def Block.MadeFrom (source : Token → Prop) : Block → Prop
  | .expression token => source token ∧ token.kind.isExpression = true
  | .assembly token => source token ∧ token.kind.isStringLiteral = true
  | _ => True

/-- **The literal that a definition is made of** comes from some source, and is of the kind that the
definition asks for. -/
def DefinitionBody.MadeFrom (source : Token → Prop) : DefinitionBody → Prop
  | .function _ => True
  | .memory capacity => source capacity ∧ IsSize capacity
  | .string literal => source literal ∧ literal.kind.isStringLiteral = true

/-- **A property that every step of building keeps, if the literals come from some source.** -/
structure LiteralInvariant (source : Token → Prop) (options : ParseOptions) (P : Workspace → Prop) :
    Prop where
  number : ∀ {w : Workspace}, P w → P { w with nextIndex := w.nextIndex + 1 }
  block : ∀ {w : Workspace} {block : Block}, block.isReference = false → block.MadeFrom source →
    P w → P { w with store := w.store.withBlock block }
  reference : ∀ {w : Workspace} {name : Token} {target : DefId},
    w.symbols.lookup name.text = some target → P w → P (w.withReference name target)
  change : ∀ {w : Workspace} (id : BlockId) {f : Block → Block},
    (∀ block, block.isReference = true ∨ (f block).isReference = true → f block = block) →
    (∀ block, block.MadeFrom source → (f block).MadeFrom source) → P w →
    P { w with store := w.store.modifyBlock id f }
  definition : ∀ {w : Workspace} {d : Definition}, d.Begun options → d.body.MadeFrom source → P w →
    P ⟨w.store.withDef { d with index := w.symbols.length },
      w.symbols ++ [(d.ident.text, w.store.nextDef)], w.nextIndex⟩

/-- A property that the steps keep anyway. -/
theorem BuildInvariant.literalInvariant {options : ParseOptions} {P : Workspace → Prop}
    (h : BuildInvariant options P) (source : Token → Prop) : LiteralInvariant source options P :=
  ⟨h.number, fun hblock _ => h.block hblock, h.reference, fun id _ hf _ => h.change id hf,
    fun hd _ => h.definition hd⟩

/-- **The step keeps a property.** -/
def Keeps {α : Type} (P : Workspace → Prop) (m : ParseM α) : Prop :=
  ∀ w a w', m w = .ok a w' → P w → P w'

namespace Keeps

variable {α β : Type} {P : Workspace → Prop}

theorem bind {m : ParseM α} {f : α → ParseM β} (hm : Keeps P m) (hf : ∀ a, Keeps P (f a)) :
    Keeps P (m >>= f) := by
  intro w b w' h hw
  obtain ⟨a, w₁, h₁, h₂⟩ := bind_eq_ok.mp h
  exact hf a w₁ b w' h₂ (hm w a w₁ h₁ hw)

theorem pure (a : α) : Keeps P (Pure.pure a) := by
  intro w a' w' h hw
  obtain ⟨-, rfl⟩ := pure_eq_ok.mp h
  exact hw

theorem map {m : ParseM α} (hm : Keeps P m) (f : α → β) :
    Keeps P (m >>= fun a => Pure.pure (f a)) := hm.bind fun a => pure (f a)

theorem checkDepth (options : ParseOptions) (opener : Token) (depth : Nat) :
    Keeps P (checkDepth options opener depth) := by
  intro w a w' h hw
  obtain ⟨-, rfl⟩ := checkDepth_eq_ok.mp h
  exact hw

theorem checkName (name : Token) : Keeps P (checkName name) := by
  intro w a w' h hw
  obtain ⟨-, rfl⟩ := checkName_eq_ok.mp h
  exact hw

end Keeps

/-! ## Building -/

namespace LiteralInvariant

variable {source : Token → Prop} {options : ParseOptions} {P : Workspace → Prop}
  (hP : LiteralInvariant source options P)

include hP

theorem takeIndex : Keeps P takeIndex := by
  intro w a w' h hw
  rw [takeIndex_eq] at h
  cases h
  exact hP.number hw

theorem addBlock {block : Block} (hblock : block.isReference = false)
    (hmade : block.MadeFrom source) : Keeps P (addBlock block) := by
  intro w a w' h hw
  obtain ⟨-, -, rfl⟩ := addBlock_eq_ok.mp h
  exact hP.block hblock hmade hw

theorem addReference (name : Token) : Keeps P (addReference name) := by
  intro w a w' h hw
  obtain ⟨target, hlookup, h⟩ := addReference_eq_ok.mp h
  obtain ⟨-, -, rfl⟩ := addBlock_eq_ok.mp h
  exact hP.reference hlookup hw

theorem addCall (name keyword : Token) : Keeps P (addCall name keyword) := by
  refine (hP.addReference name).bind fun callee w a w' h hw => ?_
  rw [get_bind] at h
  split at h
  · exact hP.addBlock rfl (by trivial) w a w' h hw
  · exact absurd h failAt_ne_ok

theorem joinChain (branch : BlockId) (alternatives : List BlockId) :
    Keeps P (joinChain branch alternatives) := by
  cases alternatives with
  | nil => exact .pure ()
  | cons alternative rest =>
    intro w a w' h hw
    rw [StackCompiler.joinChain, joinAlternative_eq] at h
    cases h
    refine hP.change branch (fun block href => ?_) (fun block hmade => ?_) hw
    · cases block with
      | branch => rcases href with href | href <;> cases href
      | _ => rfl
    · cases block <;> exact hmade

theorem fillScope (id : BlockId) (children : List BlockId) : Keeps P (fillScope id children) := by
  intro w a w' h hw
  rw [fillScope_eq] at h
  cases h
  refine hP.change id (fun block href => ?_) (fun block hmade => ?_) hw
  · cases block with
    | scope => rcases href with href | href <;> cases href
    | _ => rfl
  · cases block <;> exact hmade

theorem define {d : Definition} (hd : d.Begun options) (hmade : d.body.MadeFrom source) :
    Keeps P (define d) := by
  intro w a w' h hw
  obtain ⟨-, rfl⟩ := define_eq_ok.mp h
  exact hP.definition hd hmade hw

theorem addBranch (keyword : Token) (index : Nat) {condition body : ParseM BlockId}
    {chain : ParseM (List BlockId)} (hcondition : Keeps P condition) (hbody : Keeps P body)
    (hchain : Keeps P chain) : Keeps P (addBranch keyword index condition body chain) :=
  hcondition.bind fun _ => hbody.bind fun _ => (hP.addBlock rfl (by trivial)).bind fun _ =>
    hchain.bind fun _ => (hP.joinChain _ _).map _

/-- **Building a phrase keeps an invariant.** -/
theorem phrase {n : Nonterminal} (p : Phrase n) (hp : ∀ t ∈ p.tokens, source t) (depth : Nat) :
    Keeps P (p.build options depth) := by
  induction p generalizing depth with
  | expression token =>
    refine Keeps.map (hP.addBlock rfl ?_) _
    exact ⟨hp _ (.head _), token.2⟩
  | reference name => exact (hP.addReference _).map _
  | call name keyword => exact (hP.addCall _ _).map _
  | cast keyword types => exact (hP.addBlock rfl (by trivial)).map _
  | nested scope ih => exact (ih hp depth).map _
  | branch keyword condition body chain ihc ihb ihch =>
    simp only [Phrase.tokens, List.forall_mem_cons, List.forall_mem_append] at hp
    exact hP.takeIndex.bind fun _ =>
      hP.addBranch _ _ (ihc hp.2.1 depth) (ihb hp.2.2.1 depth) (ihch hp.2.2.2 depth)
  | loop keyword condition body ihc ihb =>
    simp only [Phrase.tokens, List.forall_mem_cons, List.forall_mem_append] at hp
    exact hP.takeIndex.bind fun _ => (ihc hp.2.1 depth).bind fun _ =>
      (ihb hp.2.2 depth).bind fun _ => (hP.addBlock rfl (by trivial)).map _
  | assembly keyword literal =>
    refine Keeps.map (hP.addBlock rfl ?_) _
    exact ⟨hp _ (.tail _ (.head _)), literal.2⟩
  | nil => exact .pure _
  | cons first rest ihf ihr =>
    obtain ⟨hfirst, hrest⟩ := List.forall_mem_append.mp hp
    exact (ihf hfirst depth).bind fun _ => (ihr hrest depth).map _
  | enclosed bracket opener inside closer ih =>
    simp only [Phrase.tokens, List.forall_mem_cons, List.forall_mem_append] at hp
    exact (Keeps.checkDepth _ _ _).bind fun _ =>
      (ih hp.2.1 (depth + 1)).bind fun _ => hP.addBlock rfl (by trivial)
  | stop => exact .pure _
  | otherwise keyword body ih =>
    obtain ⟨-, hbody⟩ := List.forall_mem_cons.mp hp
    exact hP.takeIndex.bind fun _ => (ih hbody depth).bind fun _ => (hP.addBlock rfl (by trivial)).map _
  | elseIf keyword condition body chain ihc ihb ihch =>
    simp only [Phrase.tokens, List.forall_mem_cons, List.forall_mem_append] at hp
    exact hP.takeIndex.bind fun _ => hP.takeIndex.bind fun _ =>
      (hP.addBranch _ _ (ihc hp.2.1 (depth + 1)) (ihb hp.2.2.1 (depth + 1))
        (ihch hp.2.2.2 (depth + 1))).bind fun _ =>
        (hP.addBlock rfl (by trivial)).bind fun _ => (hP.addBlock rfl (by trivial)).map _

theorem subject (header : Header) (s : SubjectPhrase) (hs : ∀ t ∈ s.tokens, source t) :
    Keeps P (s.build options header) := by
  cases s with
  | function f =>
    have hinside : ∀ t ∈ f.inside.tokens, source t := by
      intro t ht
      exact hs t (by simp [SubjectPhrase.tokens, ht])
    have hbegin (signature : Signature) (opener : Token) :
        Keeps P (beginFunction options header signature opener) :=
      (hP.addBlock rfl (by trivial)).bind fun _ => (hP.define ⟨rfl, rfl⟩ (by trivial)).bind fun _ =>
        (Keeps.checkDepth _ _ _).bind fun _ => .pure _
    exact (hbegin _ _).bind fun _ => (hP.phrase f.inside hinside 1).bind fun _ => hP.fillScope _ _
  | memory m => exact hP.define ⟨rfl, rfl⟩ ⟨hs _ (by simp [SubjectPhrase.tokens]), m.capacity.2⟩
  | string s => exact hP.define ⟨rfl, rfl⟩ ⟨hs _ (by simp [SubjectPhrase.tokens]), s.literal.2⟩

/-- **Building definitions keeps an invariant.** -/
theorem definitions (ds : List DefinitionPhrase)
    (hds : ∀ t ∈ ds.flatMap DefinitionPhrase.tokens, source t) :
    Keeps P (ds.forM (DefinitionPhrase.build options)) := by
  induction ds with
  | nil => exact .pure ()
  | cons d ds ih =>
    obtain ⟨hfirst, hrest⟩ := List.forall_mem_append.mp hds
    have hsubject := fun t ht => hfirst t (List.mem_append_right _ ht)
    have hd : Keeps P (d.build options) :=
      (Keeps.checkName _).bind fun _ => hP.subject d.header d.subject hsubject
    exact hd.bind fun _ => ih hrest

end LiteralInvariant

/-- Building definitions keeps a property that the steps keep anyway. -/
theorem BuildInvariant.definitions {options : ParseOptions} {P : Workspace → Prop}
    (hP : BuildInvariant options P) (ds : List DefinitionPhrase) :
    Keeps P (ds.forM (DefinitionPhrase.build options)) :=
  (hP.literalInvariant fun _ => True).definitions ds fun _ _ => trivial

end StackCompiler
