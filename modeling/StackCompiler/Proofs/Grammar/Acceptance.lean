import Mathlib.Data.List.Nodup
import StackCompiler.Proofs.Grammar.Recognition

/-!
# The accepted texts

With room for its nodes and its scopes, a text is parsed successfully if and only if its tokens are
those of well named definitions. Building a phrase fails for its names only: this is shown for the
basic steps, carried over to sequences of steps, and then to phrases.

* `Workspace.Knows`: the names of a workspace and what they stand for.
* `Meets`: a step succeeds exactly under a condition, within a number of nodes.
* **`Phrase.build_meets`**, **`DefinitionPhrase.build_meets`**: phrases.
* **`parseChars_iff_derives`**: texts.
-/

namespace StackCompiler

/-! ## Known names -/

/-- A name stands for a definition of its family. -/
def StandsFor (store : Store) (symbol : String × DefId) (entry : String × Family) : Prop :=
  symbol.1 = entry.1 ∧
    (store.def? symbol.2).map Definition.isFunction = some (decide (entry.2 = .function))

/-- **The names of a workspace**, each of them known once. -/
def Workspace.Knows (w : Workspace) (names : Names) : Prop :=
  List.Forall₂ (StandsFor w.store) w.symbols names ∧ (names.map Prod.fst).Nodup

namespace Workspace.Knows

variable {w w' : Workspace} {names : Names}

theorem of_eq (h : w.Knows names) (hsymbols : w'.symbols = w.symbols)
    (hdefs : ∀ id, (w'.store.def? id).map Definition.isFunction =
      (w.store.def? id).map Definition.isFunction) : w'.Knows names := by
  refine ⟨?_, h.2⟩
  rw [hsymbols]
  exact h.1.imp fun symbol entry hs => ⟨hs.1, by rw [hdefs, hs.2]⟩

theorem map_fst (h : w.Knows names) : w.symbols.map Prod.fst = names.map Prod.fst := by
  obtain ⟨hall, -⟩ := h
  generalize w.symbols = symbols at hall
  induction hall with
  | nil => rfl
  | cons hs _ ih =>
    rw [List.map_cons, List.map_cons, hs.1, ih]

theorem lookup_eq_none (h : w.Knows names) (name : String) :
    w.symbols.lookup name = none ↔ name ∉ names.map Prod.fst := by
  rw [← h.map_fst, List.lookup_eq_none_iff]
  simp only [List.mem_map, not_exists, not_and, bne_iff_ne]
  exact ⟨fun hne p hp heq => hne p hp heq.symm, fun hne p hp heq => hne p hp heq.symm⟩

/-- **A name that is found** stands for a definition of its family. -/
theorem lookup_eq_some (h : w.Knows names) {name : String} {target : DefId}
    (hlookup : w.symbols.lookup name = some target) :
    ∃ family, (name, family) ∈ names ∧
      (w.store.def? target).map Definition.isFunction = some (decide (family = .function)) := by
  obtain ⟨hall, -⟩ := h
  generalize w.symbols = symbols at hall hlookup
  induction hall with
  | nil => cases hlookup
  | @cons symbol entry symbols names hs hrest ih =>
    obtain ⟨first, target'⟩ := symbol
    obtain ⟨hname, hfamily⟩ := hs
    rw [List.lookup_cons] at hlookup
    split at hlookup
    · next heq =>
      cases hlookup
      refine ⟨entry.2, ?_, hfamily⟩
      rw [eq_of_beq heq, show first = entry.1 from hname]
      exact .head _
    · obtain ⟨family, hmem, hfunction⟩ := ih hlookup
      exact ⟨family, .tail _ hmem, hfunction⟩

theorem family_unique (h : w.Knows names) {name : String} {f g : Family} (hf : (name, f) ∈ names)
    (hg : (name, g) ∈ names) : f = g := by
  have := List.inj_on_of_nodup_map h.2 hf hg rfl
  exact (Prod.ext_iff.mp this).2

/-- One more name, which stands for a new definition. -/
theorem define (h : w.Knows names) {d : Definition} (hname : d.ident.text ∉ names.map Prod.fst)
    {family : Family} (hfamily : d.isFunction = decide (family = .function)) {u : Unit}
    (hdefine : StackCompiler.define d w = .ok u w') :
    w'.Knows (names ++ [(d.ident.text, family)]) := by
  obtain ⟨-, rfl⟩ := define_eq_ok.mp hdefine
  have hold : List.Forall₂ (StandsFor (w.store.withDef { d with index := w.symbols.length }))
      w.symbols names := by
    refine h.1.imp fun symbol entry hs => ⟨hs.1, ?_⟩
    obtain ⟨d', hd', -⟩ := Option.map_eq_some_iff.mp hs.2
    rw [Store.def?_withDef_of_lt _ _ (Store.index_lt_of_def? hd'), hs.2]
  refine ⟨List.rel_append hold (.cons ⟨rfl, ?_⟩ .nil), ?_⟩
  · rw [← hfamily]
    exact congrArg _ (Store.def?_withDef ..)
  · rw [List.map_append]
    refine List.nodup_append.mpr ⟨h.2, List.nodup_singleton _, ?_⟩
    rintro a ha b hb rfl
    obtain rfl := List.mem_singleton.mp hb
    exact hname ha

end Workspace.Knows

theorem Workspace.isFunction_markUsed (w : Workspace) (target id : DefId) :
    ((w.markUsed target).store.def? id).map Definition.isFunction =
      (w.store.def? id).map Definition.isFunction := by
  change ((w.store.modifyDef target _).def? id).map _ = _
  rw [Store.def?_modifyDef]
  split_ifs
  · rw [Option.map_map]
    rfl
  · rfl

/-- A reference names a function if its target is one. -/
theorem namesFunction_of_addBlock {token : Token} {target : DefId} {w w' : Workspace} {id : BlockId}
    (h : addBlock (.reference token target) w = .ok id w') :
    namesFunction w'.store id = ((w.store.def? target).map Definition.isFunction).getD false := by
  obtain ⟨-, rfl, rfl⟩ := addBlock_eq_ok.mp h
  rw [namesFunction, Store.block?_withBlock]
  rfl

/-! ## Steps that meet a condition -/

/-- **With room for its nodes, a step succeeds exactly under a condition.** It leads from some known
names to others. -/
def Meets {α : Type} (m : ParseM α) (names names' : Names) (condition : Prop) (nodes : Nat) :
    Prop :=
  ∀ w, w.Knows names → w.store.size + nodes ≤ w.store.maxNodes →
    (condition → ∃ a w', m w = .ok a w') ∧
    ∀ a w', m w = .ok a w' → condition ∧ w'.Knows names' ∧
      w'.store.size ≤ w.store.size + nodes ∧ w'.store.maxNodes = w.store.maxNodes

namespace Meets

variable {α β : Type} {names names' names'' : Names} {p q : Prop} {i j : Nat}

theorem bind {m : ParseM α} {f : α → ParseM β} (hm : Meets m names names' p i)
    (hf : ∀ a, p → Meets (f a) names' names'' q j) :
    Meets (m >>= f) names names'' (p ∧ q) (i + j) := by
  intro w hw hroom
  obtain ⟨hok, hback⟩ := hm w hw (by omega)
  constructor
  · rintro ⟨hp, hq⟩
    obtain ⟨a, w₁, h₁⟩ := hok hp
    obtain ⟨-, hw₁, hsize, hmax⟩ := hback a w₁ h₁
    obtain ⟨b, w₂, h₂⟩ := (hf a hp w₁ hw₁ (by omega)).1 hq
    exact ⟨b, w₂, bind_eq_ok.mpr ⟨a, w₁, h₁, h₂⟩⟩
  · intro b w₂ h
    obtain ⟨a, w₁, h₁, h₂⟩ := bind_eq_ok.mp h
    obtain ⟨hp, hw₁, hsize, hmax⟩ := hback a w₁ h₁
    obtain ⟨hq, hw₂, hsize', hmax'⟩ := (hf a hp w₁ hw₁ (by omega)).2 b w₂ h₂
    exact ⟨⟨hp, hq⟩, hw₂, by omega, by omega⟩

/-- The same step, with an equivalent condition and more room. -/
theorem weaken {m : ParseM α} (hm : Meets m names names' p i) (hpq : p ↔ q) (hij : i ≤ j) :
    Meets m names names' q j := by
  intro w hw hroom
  obtain ⟨hok, hback⟩ := hm w hw (by omega)
  refine ⟨fun hq => hok (hpq.mpr hq), fun a w' h => ?_⟩
  obtain ⟨hp, hw', hsize, hmax⟩ := hback a w' h
  exact ⟨hpq.mp hp, hw', by omega, hmax⟩

theorem pure (a : α) : Meets (Pure.pure a) names names True 0 := by
  intro w hw _
  refine ⟨fun _ => ⟨a, w, rfl⟩, fun _ w' h => ?_⟩
  obtain ⟨-, rfl⟩ := pure_eq_ok.mp h
  exact ⟨trivial, hw, Nat.le_refl _, rfl⟩

/-- A step and a result that needs no more. -/
theorem map {m : ParseM α} (hm : Meets m names names' p i) (f : α → β) :
    Meets (m >>= fun a => Pure.pure (f a)) names names' p i :=
  (hm.bind fun a _ => pure (f a)).weaken (iff_of_eq (and_true _)) (Nat.le_refl _)

theorem takeIndex : Meets takeIndex names names True 0 := by
  intro w hw _
  refine ⟨fun _ => ⟨_, _, takeIndex_eq w⟩, fun _ w' h => ?_⟩
  rw [takeIndex_eq] at h
  cases h
  exact ⟨trivial, hw, Nat.le_refl _, rfl⟩

theorem addBlock (block : Block) : Meets (addBlock block) names names True 1 := by
  intro w hw hroom
  refine ⟨fun _ => ⟨_, _, addBlock_eq_ok.mpr ⟨by omega, rfl, rfl⟩⟩, fun _ w' h => ?_⟩
  obtain ⟨-, -, rfl⟩ := addBlock_eq_ok.mp h
  exact ⟨trivial, hw.of_eq rfl fun _ => rfl, Nat.le_of_eq (Store.size_withBlock ..), rfl⟩

theorem modifyBlock (target : BlockId) (f : Block → Block) :
    Meets (modifyBlock target f) names names True 0 := by
  intro w hw _
  refine ⟨fun _ => ⟨_, _, rfl⟩, fun _ w' h => ?_⟩
  cases h
  refine ⟨trivial, hw.of_eq rfl fun id => ?_, Nat.le_of_eq (Store.size_modifyBlock ..),
    Store.maxNodes_modifyBlock ..⟩
  exact congrArg _ (congrFun (Store.def?_modifyBlock w.store target f) id)

theorem joinChain (branch : BlockId) (alternatives : List BlockId) :
    Meets (joinChain branch alternatives) names names True 0 := by
  cases alternatives with
  | nil => exact pure ()
  | cons alternative rest => exact modifyBlock branch _

/-- **A name is found if it is known.** -/
theorem addReference (name : Token) :
    Meets (addReference name) names names (∃ family, (name.text, family) ∈ names) 1 := by
  intro w hw hroom
  have hmark (target : DefId) : (w.markUsed target).Knows names :=
    hw.of_eq rfl (w.isFunction_markUsed target)
  have hsize (target : DefId) : (w.markUsed target).store.size = w.store.size :=
    Store.size_modifyDef ..
  have hmax (target : DefId) : (w.markUsed target).store.maxNodes = w.store.maxNodes :=
    Store.maxNodes_modifyDef ..
  constructor
  · rintro ⟨family, hfamily⟩
    cases hlookup : w.symbols.lookup name.text with
    | none => exact absurd (List.mem_map_of_mem hfamily) ((hw.lookup_eq_none _).mp hlookup)
    | some target =>
      obtain ⟨id, w', h⟩ := (addBlock (.reference name target) _ (hmark target)
        (by rw [hsize, hmax]; exact hroom)).1 trivial
      exact ⟨id, w', addReference_eq_ok.mpr ⟨target, hlookup, h⟩⟩
  · intro id w' h
    obtain ⟨target, hlookup, h⟩ := addReference_eq_ok.mp h
    obtain ⟨family, hfamily, -⟩ := hw.lookup_eq_some hlookup
    obtain ⟨-, hw', hsize', hmax'⟩ := (addBlock (.reference name target) _ (hmark target)
        (by rw [hsize, hmax]; exact hroom)).2 id w' h
    rw [hsize target] at hsize'
    rw [hmax target] at hmax'
    exact ⟨⟨family, hfamily⟩, hw', hsize', hmax'⟩

/-- **A call succeeds if the name stands for a function.** -/
theorem addCall (name keyword : Token) :
    Meets (addCall name keyword) names names ((name.text, Family.function) ∈ names) 2 := by
  intro w hw hroom
  obtain ⟨hok, hback⟩ := addReference name w hw (by omega)
  have hfunction {id : BlockId} {w' : Workspace}
      (h : StackCompiler.addReference name w = .ok id w') :
      namesFunction w'.store id = true ↔ (name.text, Family.function) ∈ names := by
    obtain ⟨target, hlookup, h⟩ := addReference_eq_ok.mp h
    obtain ⟨family, hfamily, htarget⟩ := hw.lookup_eq_some hlookup
    rw [namesFunction_of_addBlock h, Workspace.isFunction_markUsed, htarget]
    simp only [Option.getD_some, decide_eq_true_eq]
    exact ⟨fun h => h ▸ hfamily, fun h => hw.family_unique hfamily h⟩
  constructor
  · intro hmem
    obtain ⟨id, w₁, h₁⟩ := hok ⟨_, hmem⟩
    obtain ⟨-, hw₁, hsize, hmax⟩ := hback id w₁ h₁
    obtain ⟨call, w₂, h₂⟩ := (addBlock (.call keyword.location id) w₁ hw₁ (by omega)).1 trivial
    refine ⟨call, w₂, bind_eq_ok.mpr ⟨id, w₁, h₁, ?_⟩⟩
    rw [get_bind, if_pos ((hfunction h₁).mpr hmem)]
    exact h₂
  · intro call w₂ h
    obtain ⟨id, w₁, h₁, h₂⟩ := bind_eq_ok.mp h
    obtain ⟨-, hw₁, hsize, hmax⟩ := hback id w₁ h₁
    rw [get_bind] at h₂
    split_ifs at h₂ with hnames
    · obtain ⟨-, hw₂, hsize', hmax'⟩ :=
        (addBlock (.call keyword.location id) w₁ hw₁ (by omega)).2 call w₂ h₂
      exact ⟨(hfunction h₁).mp hnames, hw₂, by omega, by omega⟩
    · exact absurd h₂ failAt_ne_ok

theorem checkDepth {options : ParseOptions} {depth : Nat} (h : depth ≤ options.maxDepth)
    (opener : Token) : Meets (checkDepth options opener depth) names names True 0 := by
  intro w hw _
  refine ⟨fun _ => ⟨(), w, checkDepth_eq_ok.mpr ⟨h, rfl⟩⟩, fun _ w' h => ?_⟩
  obtain ⟨-, rfl⟩ := checkDepth_eq_ok.mp h
  exact ⟨trivial, hw, Nat.le_refl _, rfl⟩

theorem checkName (name : Token) :
    Meets (checkName name) names names (name.text ∉ names.map Prod.fst) 0 := by
  intro w hw _
  refine ⟨fun h => ⟨(), w, checkName_eq_ok.mpr ⟨(hw.lookup_eq_none _).mpr h, rfl⟩⟩,
    fun _ w' h => ?_⟩
  obtain ⟨hlookup, rfl⟩ := checkName_eq_ok.mp h
  exact ⟨(hw.lookup_eq_none _).mp hlookup, hw, Nat.le_refl _, rfl⟩

/-- A definition whose name is free. -/
theorem define {d : Definition} (hname : d.ident.text ∉ names.map Prod.fst) {family : Family}
    (hfamily : d.isFunction = decide (family = .function)) :
    Meets (define d) names (names ++ [(d.ident.text, family)]) True 1 := by
  intro w hw hroom
  refine ⟨fun _ => ⟨(), _, define_eq_ok.mpr ⟨by omega, rfl⟩⟩, fun _ w' h => ?_⟩
  have hw' := hw.define hname hfamily h
  obtain ⟨-, rfl⟩ := define_eq_ok.mp h
  exact ⟨trivial, hw', Nat.le_of_eq (Store.size_withDef ..), rfl⟩

theorem addBranch (keyword : Token) (index : Nat) {condition body : ParseM BlockId}
    {chain : ParseM (List BlockId)} {r : Prop} {k : Nat}
    (hcondition : Meets condition names names p i)
    (hbody : Meets body names names q j) (hchain : Meets chain names names r k) :
    Meets (addBranch keyword index condition body chain) names names (p ∧ q ∧ r)
      (i + j + k + 1) := by
  have h := hcondition.bind fun c _ => hbody.bind fun b _ =>
    (addBlock (.branch keyword.location c b none index)).bind fun branch _ =>
      hchain.bind fun alternatives _ =>
        (joinChain branch alternatives).map fun _ => branch :: alternatives
  exact h.weaken (by simp) (by omega)

end Meets

/-! ## Phrases -/

theorem Phrase.tokens_pos (p : Phrase .scope) : 0 < p.tokens.length := by
  cases p with
  | enclosed bracket opener inside closer => exact Nat.succ_pos _

/-- How many tokens of a phrase make no node at least. -/
def Nonterminal.spare : Nonterminal → Nat
  | .scope => 1
  | .block | .blocks | .chain => 0

section Phrases

variable {options : ParseOptions} {names : Names}

/-- **A phrase is built if it is well named**, given room for its tokens. -/
theorem Phrase.build_meets {n : Nonterminal} (p : Phrase n) {depth : Nat}
    (hdepth : depth + p.tokens.length ≤ options.maxDepth) :
    Meets (p.build options depth) names names (p.WellNamed names)
      (p.tokens.length - n.spare) := by
  -- A scope opens one level deeper but takes two tokens for its brackets, so the room that is left
  -- for its inside is always enough.
  induction p generalizing depth with
  | expression token => exact (Meets.addBlock _).map _
  | reference name => exact (Meets.addReference name.1).map _
  | call name keyword => exact (Meets.addCall name.1 keyword.1).map _
  | cast keyword types =>
    exact ((Meets.addBlock _).map _).weaken Iff.rfl (Nat.le_add_left _ _)
  | nested scope ih => exact ((ih hdepth).map _).weaken Iff.rfl (Nat.sub_le _ _)
  | branch keyword condition body chain ihc ihb ihch =>
    have hpos := condition.tokens_pos
    simp only [Phrase.tokens, List.length_cons, List.length_append] at hdepth ⊢
    have hc : depth + condition.tokens.length ≤ options.maxDepth := by omega
    have hb : depth + body.tokens.length ≤ options.maxDepth := by omega
    have hch : depth + chain.tokens.length ≤ options.maxDepth := by omega
    have h := Meets.takeIndex.bind fun index _ =>
      Meets.addBranch keyword.1 index (ihc hc) (ihb hb) (ihch hch)
    exact h.weaken (by simp [Phrase.WellNamed]) (by simp only [Nonterminal.spare]; omega)
  | loop keyword condition body ihc ihb =>
    simp only [Phrase.tokens, List.length_cons, List.length_append] at hdepth ⊢
    have hc : depth + condition.tokens.length ≤ options.maxDepth := by omega
    have hb : depth + body.tokens.length ≤ options.maxDepth := by omega
    have h := Meets.takeIndex.bind fun index _ => (ihc hc).bind fun c _ => (ihb hb).bind fun b _ =>
      (Meets.addBlock (.loop keyword.1.location c b index)).map fun id => [id]
    exact h.weaken (by simp [Phrase.WellNamed]) (by simp only [Nonterminal.spare]; omega)
  | assembly keyword literal =>
    exact ((Meets.addBlock _).map _).weaken Iff.rfl (Nat.le_succ _)
  | nil => exact Meets.pure _
  | cons first rest ihf ihr =>
    simp only [Phrase.tokens, List.length_append] at hdepth ⊢
    exact (ihf (by omega)).bind fun ids _ => (ihr (by omega)).map fun more => ids ++ more
  | enclosed bracket opener inside closer ih =>
    simp only [Phrase.tokens, List.length_cons, List.length_append, List.length_nil] at hdepth ⊢
    have hopener : depth + 1 ≤ options.maxDepth := by omega
    have hinside : depth + 1 + inside.tokens.length ≤ options.maxDepth := by omega
    have h := (Meets.checkDepth hopener opener.1).bind fun _ _ => (ih hinside).bind fun ids _ =>
      Meets.addBlock (.scope bracket opener.1.location ids)
    exact h.weaken (by simp [Phrase.WellNamed]) (by simp only [Nonterminal.spare]; omega)
  | stop => exact Meets.pure _
  | otherwise keyword body ih =>
    simp only [Phrase.tokens, List.length_cons] at hdepth ⊢
    have hb : depth + body.tokens.length ≤ options.maxDepth := by omega
    have h := Meets.takeIndex.bind fun index _ => (ih hb).bind fun b _ =>
      (Meets.addBlock (.alternative keyword.1.location b index)).map fun id => [id]
    exact h.weaken (by simp [Phrase.WellNamed]) (by simp only [Nonterminal.spare]; omega)
  | elseIf keyword condition body chain ihc ihb ihch =>
    have hpos := condition.tokens_pos
    have hpos' := body.tokens_pos
    simp only [Phrase.tokens, List.length_cons, List.length_append] at hdepth ⊢
    have hc : depth + 1 + condition.tokens.length ≤ options.maxDepth := by omega
    have hb : depth + 1 + body.tokens.length ≤ options.maxDepth := by omega
    have hch : depth + 1 + chain.tokens.length ≤ options.maxDepth := by omega
    have h := Meets.takeIndex.bind fun index _ => Meets.takeIndex.bind fun inner _ =>
      (Meets.addBranch keyword.1 inner (ihc hc) (ihb hb) (ihch hch)).bind fun ids _ =>
        (Meets.addBlock (.scope .brace keyword.1.location ids)).bind fun b _ =>
          (Meets.addBlock (.alternative keyword.1.location b index)).map fun id => [id]
    exact h.weaken (by simp [Phrase.WellNamed]) (by simp only [Nonterminal.spare]; omega)

theorem beginFunction_meets {header : Header} (hname : header.ident.text ∉ names.map Prod.fst)
    (hdepth : 1 ≤ options.maxDepth) (signature : Signature) (opener : Token) :
    Meets (beginFunction options header signature opener) names
      (names ++ [(header.ident.text, .function)]) True 2 := by
  refine Meets.weaken (p := True ∧ True ∧ True) (i := 1 + (1 + 0)) ?_ (by simp) (Nat.le_refl _)
  refine (Meets.addBlock _).bind fun body _ => ?_
  exact Meets.bind (Meets.define hname rfl) fun _ _ => (Meets.checkDepth hdepth opener).map _

theorem SubjectPhrase.build_meets (s : SubjectPhrase) {header : Header}
    (hheader : header.ident = s.name) (hname : s.name.text ∉ names.map Prod.fst)
    (hdepth : s.tokens.length ≤ options.maxDepth) :
    Meets (s.build options header) names (names ++ [s.entry]) (s.WellNamed (names ++ [s.entry]))
      s.tokens.length := by
  rw [← hheader] at hname
  rw [entry, ← hheader]
  cases s with
  | function f =>
    simp only [SubjectPhrase.tokens, List.length_cons, List.length_append] at hdepth ⊢
    have hopener : 1 ≤ options.maxDepth := by omega
    have hinside : 1 + f.inside.tokens.length ≤ options.maxDepth := by omega
    have h := (beginFunction_meets hname hopener f.types f.opener.1).bind fun body _ =>
      (f.inside.build_meets hinside).bind fun ids _ => Meets.modifyBlock body (filled ids)
    exact h.weaken (by simp [SubjectPhrase.WellNamed, SubjectPhrase.family])
      (by simp only [Nonterminal.spare]; omega)
  | memory m => exact (Meets.define hname rfl).weaken Iff.rfl (by simp [SubjectPhrase.tokens])
  | string s => exact (Meets.define hname rfl).weaken Iff.rfl (by simp [SubjectPhrase.tokens])

/-- **A definition is built if its name is free** and it is well named. -/
theorem DefinitionPhrase.build_meets (d : DefinitionPhrase)
    (hdepth : d.tokens.length ≤ options.maxDepth) :
    Meets (d.build options) names (names ++ [d.subject.entry])
      (d.subject.name.text ∉ names.map Prod.fst ∧
        d.subject.WellNamed (names ++ [d.subject.entry])) d.tokens.length := by
  simp only [DefinitionPhrase.tokens, List.length_append] at hdepth ⊢
  have hsubject : d.subject.tokens.length ≤ options.maxDepth := by omega
  have hcheck : Meets (checkName d.subject.name) names names _ 0 := Meets.checkName _
  have h := hcheck.bind fun _ hname =>
    d.subject.build_meets (show d.header.ident = d.subject.name from rfl) hname hsubject
  exact h.weaken Iff.rfl (by omega)

/-- **Definitions in a row are built if they are well named.** -/
theorem forM_build_meets {ds : List DefinitionPhrase}
    (hdepth : (ds.flatMap DefinitionPhrase.tokens).length ≤ options.maxDepth) :
    Meets (ds.forM (DefinitionPhrase.build options)) names
      (names ++ ds.map fun d => d.subject.entry) (WellNamed names ds)
      (ds.flatMap DefinitionPhrase.tokens).length := by
  induction ds generalizing names with
  | nil =>
    rw [List.map_nil, List.append_nil]
    exact Meets.pure _
  | cons d ds ih =>
    simp only [List.flatMap_cons, List.length_append] at hdepth ⊢
    have hd : d.tokens.length ≤ options.maxDepth := by omega
    have hds : (ds.flatMap DefinitionPhrase.tokens).length ≤ options.maxDepth := by omega
    rw [List.map_cons, List.append_cons]
    exact ((d.build_meets hd).bind fun _ _ => ih hds).weaken (by simp [WellNamed, and_assoc])
      (Nat.le_refl _)

end Phrases

/-! ## Texts -/

theorem Derives.length_le {source : List Char} {ds : List DefinitionPhrase}
    (h : Derives source ds) : (ds.flatMap DefinitionPhrase.tokens).length ≤ source.length := by
  obtain ⟨last, h, -⟩ := h
  have hlength := (Lexer.run_ofChars_whole source).length_le
  rw [(tokenize_eq_ok.mp h).2, List.length_append] at hlength
  exact Nat.le_of_succ_le_succ hlength

/-- **A text is accepted exactly if it derives from the grammar**: its tokens are those of
definitions in a row which are well named, given that the limits leave room for a node and a scope
for every character. -/
theorem parseChars_iff_derives {options : ParseOptions} {store : Store} {source : List Char}
    (hdepth : source.length ≤ options.maxDepth)
    (hnodes : store.size + source.length ≤ store.maxNodes) :
    (∃ unit, (parseChars options store source).outcome = .ok unit) ↔
      ∃ ds, Derives source ds ∧ WellNamed [] ds := by
  have hstart : Workspace.Knows ⟨store, [], 0⟩ [] := ⟨.nil, List.nodup_nil⟩
  constructor
  · rintro ⟨unit, hunit⟩
    have hparsed : parseChars options store source =
        ⟨.ok unit, (parseChars options store source).store⟩ := by rw [← hunit]
    obtain ⟨ds, w', hderives, hbuild, -⟩ := parseChars_eq_ok.mp hparsed
    have hlength := hderives.length_le
    refine ⟨ds, hderives, ?_⟩
    exact ((forM_build_meets (by omega) _ hstart (by simp only; omega)).2 _ _ hbuild).1
  · rintro ⟨ds, hderives, hnamed⟩
    have hlength := hderives.length_le
    have hdepth' : (ds.flatMap DefinitionPhrase.tokens).length ≤ options.maxDepth := by omega
    obtain ⟨_, w', hbuild⟩ := (forM_build_meets hdepth' _ hstart (by simp only; omega)).1 hnamed
    refine ⟨w'.symbols.map Prod.snd, ?_⟩
    rw [parseChars_eq_ok.mpr ⟨ds, w', hderives, hbuild, rfl, rfl⟩]

/-- A function that calls itself, before a memory region whose size is written in hexadecimal. -/
theorem derives_selfCall :
    ∃ ds, Derives "func f req u8 { if (dup) { f call } else [drop] } mem m 0x10".toList ds ∧
      WellNamed [] ds :=
  (@parseChars_iff_derives {} (Store.empty 100) _ (by decide +kernel) (by decide +kernel)).mp
    ⟨[⟨0, 0⟩, ⟨1, 0⟩], by decide +kernel⟩

end StackCompiler
