import StackCompiler.Proofs.Chain.Plain

/-!
# Building from other tokens

Two steps of parsing are alike if they do the same from workspaces that differ in locations and
numbers of tokens only. Tokens with the same words derive from phrases that are built alike.

* **`Alike`**: steps that do the same.
* **`Phrase.retoken`**, **`DefinitionPhrase.retoken`**: phrases and definitions with other tokens.
-/

namespace StackCompiler

/-! ## Steps -/

/-- What a step leaves, without locations and numbers of tokens; nothing if it fails. -/
def seen {α : Type} : EStateM.Result ParseError Workspace α → Option (α × Workspace)
  | .ok a w => some (a, w.plain)
  | .error _ _ => none

/-- **Two steps do the same**, up to locations and numbers of tokens. -/
def Alike {α : Type} (m m' : ParseM α) : Prop :=
  ∀ w w', w.plain = w'.plain → seen (m w) = seen (m' w')

namespace Alike

variable {α β : Type} {m m' m'' : ParseM α}

theorem symm (h : Alike m m') : Alike m' m := fun w w' hw => (h w' w hw.symm).symm

theorem trans (h : Alike m m') (h' : Alike m' m'') : Alike m m'' :=
  fun w w' hw => (h w w' hw).trans (h' w' w' rfl)

theorem bind {f f' : α → ParseM β} (hm : Alike m m') (hf : ∀ a, Alike (f a) (f' a)) :
    Alike (m >>= f) (m' >>= f') := by
  intro w w' hw
  have hfirst := hm w w' hw
  cases hr : m w with
  | ok a w₁ =>
    cases hr' : m' w' with
    | ok a' w₁' =>
      rw [hr, hr'] at hfirst
      injection hfirst with hpair
      obtain ⟨rfl, hplain⟩ := Prod.mk.inj hpair
      rw [bind_of_eq_ok hr, bind_of_eq_ok hr']
      exact hf a w₁ w₁' hplain
    | error e' w₁' =>
      rw [hr, hr'] at hfirst
      cases hfirst
  | error e w₁ =>
    cases hr' : m' w' with
    | ok a' w₁' =>
      rw [hr, hr'] at hfirst
      cases hfirst
    | error e' w₁' =>
      rw [bind_of_eq_error hr, bind_of_eq_error hr']
      rfl

theorem pure (a : α) : Alike (Pure.pure a) (Pure.pure a) := by
  intro w w' hw
  exact congrArg (fun w => some (a, w)) hw

/-- A result that is made of alike results. -/
theorem map (h : Alike m m') (f : α → β) :
    Alike (m >>= fun a => Pure.pure (f a)) (m' >>= fun a => Pure.pure (f a)) :=
  h.bind fun a => pure (f a)

theorem get_bind {f f' : Workspace → ParseM α}
    (h : ∀ w w', w.plain = w'.plain → Alike (f w) (f' w')) :
    Alike (get >>= f) (get >>= f') := fun w w' hw => h w w' hw w w' hw

/-- Steps that do the same to the plain workspace. -/
theorem of_plain (g : Workspace → Option (α × Workspace)) (h : ∀ w, seen (m w) = g w.plain)
    (h' : ∀ w, seen (m' w) = g w.plain) : Alike m m' := by
  intro w w' hw
  rw [h, h', hw]

theorem failAt (token token' : Token) (cause cause' : ParseFault) :
    Alike (failAt token cause : ParseM α) (failAt token' cause') := fun _ _ _ => rfl

theorem takeIndex : Alike takeIndex takeIndex :=
  of_plain (fun v => some (v.nextIndex, { v with nextIndex := v.nextIndex + 1 })) (fun _ => rfl)
    fun _ => rfl

theorem reserve : Alike reserve reserve := by
  have h (w : Workspace) : seen (StackCompiler.reserve w) =
      if w.plain.store.maxNodes ≤ w.plain.store.size then none else some ((), w.plain) := by
    rw [reserve_apply, Workspace.store_plain, Store.maxNodes_plain, Store.size_plain]
    split <;> rfl
  exact of_plain (fun v => if v.store.maxNodes ≤ v.store.size then none else some ((), v)) h h

/-- **Blocks that differ in locations and numbers of tokens only are added alike.** -/
theorem addBlock {block block' : Block} (h : block.plain = block'.plain) :
    Alike (addBlock block) (addBlock block') := by
  let pushed (v : Workspace) : Option (BlockId × Workspace) :=
    some (v.store.nextBlock, { v with store := v.store.withBlock block.plain })
  have hpush {block₁ : Block} (h₁ : block₁.plain = block.plain) (w : Workspace) :
      some (w.store.nextBlock, Workspace.plain { w with store := w.store.withBlock block₁ }) =
        pushed w.plain := by
    simp only [pushed, Workspace.plain, Store.nextBlock_plain, Store.plain_withBlock, h₁]
  exact reserve.bind fun _ => of_plain pushed (hpush rfl) (hpush h.symm)

/-- **Definitions that differ in locations and numbers of tokens only are added alike.** -/
theorem define {d d' : Definition} (h : d.plain = d'.plain) : Alike (define d) (define d') := by
  let pushed (v : Workspace) : Option (Unit × Workspace) :=
    some ((), ⟨v.store.withDef { d.plain with index := v.symbols.length },
      v.symbols ++ [(d.plain.ident.text, v.store.nextDef)], v.nextIndex⟩)
  have hpush {d₁ : Definition} (h₁ : d₁.plain = d.plain) (w : Workspace) :
      some ((), Workspace.plain ⟨w.store.withDef { d₁ with index := w.symbols.length },
        w.symbols ++ [(d₁.ident.text, w.store.nextDef)], w.nextIndex⟩) = pushed w.plain := by
    simp only [pushed, Workspace.plain, Store.nextDef_plain, Store.plain_withDef, ← h₁]
    rfl
  exact reserve.bind fun _ => of_plain pushed (hpush rfl) (hpush h.symm)

theorem modifyBlock (target : BlockId) {f : Block → Block}
    (hf : ∀ block, f block.plain = (f block).plain) :
    Alike (modifyBlock target f) (modifyBlock target f) := by
  have h (w : Workspace) : seen (StackCompiler.modifyBlock target f w) =
      some ((), { w.plain with store := w.plain.store.modifyBlock target f }) := by
    rw [Workspace.store_plain, ← Store.plain_modifyBlock w.store hf]
    rfl
  exact of_plain (fun v => some ((), { v with store := v.store.modifyBlock target f })) h h

theorem joinChain (branch : BlockId) (alternatives : List BlockId) :
    Alike (joinChain branch alternatives) (joinChain branch alternatives) := by
  cases alternatives with
  | nil => exact pure ()
  | cons alternative rest => exact modifyBlock branch (Block.plain_joined alternative)

theorem checkDepth (options : ParseOptions) (opener opener' : Token) (depth : Nat) :
    Alike (checkDepth options opener depth) (checkDepth options opener' depth) := by
  unfold StackCompiler.checkDepth
  by_cases hdeep : options.maxDepth < depth
  · rw [if_pos hdeep, if_pos hdeep]
    exact failAt _ _ _ _
  · rw [if_neg hdeep, if_neg hdeep]
    exact pure ()

theorem checkName {name name' : Token} (h : name.word = name'.word) :
    Alike (checkName name) (checkName name') := by
  have htext : name.text = name'.text := congrArg (·.2.2) h
  refine get_bind fun w w' hw => ?_
  have hsymbols : w.symbols = w'.symbols := congrArg (·.symbols) hw
  rw [htext, hsymbols]
  cases w'.symbols.lookup name'.text with
  | none => exact pure ()
  | some target => exact failAt _ _ _ _

theorem addReference {name name' : Token} (h : name.word = name'.word) :
    Alike (addReference name) (addReference name') := by
  have htext : name.text = name'.text := congrArg (·.2.2) h
  refine get_bind fun w w' hw => ?_
  have hsymbols : w.symbols = w'.symbols := congrArg (·.symbols) hw
  rw [htext, hsymbols]
  cases w'.symbols.lookup name'.text with
  | none => exact failAt _ _ _ _
  | some target =>
    let marked (v : Workspace) : Option (Unit × Workspace) := some ((), v.markUsed target)
    have hmark (w : Workspace) : some ((), (w.markUsed target).plain) = marked w.plain := by
      simp only [marked, Workspace.plain_markUsed]
    have hblock : (Block.reference name target).plain = (Block.reference name' target).plain :=
      congrArg (Block.reference · target) (Token.plain_eq_iff.mpr h)
    exact bind (of_plain marked hmark hmark) fun _ => addBlock hblock

theorem addCall {name name' : Token} (h : name.word = name'.word) (keyword keyword' : Token) :
    Alike (addCall name keyword) (addCall name' keyword') := by
  refine (addReference h).bind fun callee => get_bind fun w w' hw => ?_
  have hnames : namesFunction w.store callee = namesFunction w'.store callee := by
    rw [← namesFunction_plain w.store, ← namesFunction_plain w'.store]
    exact congrArg (fun w => namesFunction w.store callee) hw
  rw [hnames]
  by_cases hfunction : namesFunction w'.store callee = true
  · rw [if_pos hfunction, if_pos hfunction]
    exact addBlock (by rfl)
  · rw [if_neg hfunction, if_neg hfunction]
    exact failAt _ _ _ _

theorem addBranch (keyword keyword' : Token) (index : Nat) {condition condition' : ParseM BlockId}
    {body body' : ParseM BlockId} {chain chain' : ParseM (List BlockId)}
    (hcondition : Alike condition condition') (hbody : Alike body body')
    (hchain : Alike chain chain') :
    Alike (addBranch keyword index condition body chain)
      (addBranch keyword' index condition' body' chain') :=
  hcondition.bind fun _ => hbody.bind fun _ => (addBlock (by rfl)).bind fun branch =>
    hchain.bind fun alternatives => (joinChain branch alternatives).map _

end Alike

/-! ## Tokens with the same words -/

theorem words_eq_cons {tokens rest : List Token} {token : Token}
    (h : tokens.map Token.word = (token :: rest).map Token.word) :
    ∃ token' rest', tokens = token' :: rest' ∧ token.word = token'.word ∧
      rest'.map Token.word = rest.map Token.word := by
  obtain ⟨token', rest', rfl, htoken, hrest⟩ := List.map_eq_cons_iff.mp h
  exact ⟨token', rest', rfl, htoken.symm, hrest⟩

theorem words_eq_append {tokens first rest : List Token}
    (h : tokens.map Token.word = (first ++ rest).map Token.word) :
    ∃ first' rest', tokens = first' ++ rest' ∧ first'.map Token.word = first.map Token.word ∧
      rest'.map Token.word = rest.map Token.word := by
  rw [List.map_append] at h
  exact List.map_eq_append_iff.mp h

theorem map_plain_eq {tokens tokens' : List Token}
    (h : tokens.map Token.word = tokens'.map Token.word) :
    tokens.map Token.plain = tokens'.map Token.plain := by
  induction tokens' generalizing tokens with
  | nil =>
    rw [List.map_nil, List.map_eq_nil_iff] at h
    rw [h]
  | cons token' tokens' ih =>
    obtain ⟨token, tokens, rfl, htoken, hrest⟩ := words_eq_cons h
    rw [List.map_cons, List.map_cons, ih hrest, Token.plain_eq_iff.mpr htoken]

theorem Token.kind_eq {token token' : Token} (h : token.word = token'.word) :
    token.kind = token'.kind := congrArg (·.1) h

/-- Types with the same words. -/
theorem TypeRun.retoken (types : TypeRun) {tokens : List Token}
    (h : tokens.map Token.word = types.1.map Token.word) :
    ∃ types' : TypeRun, types'.1 = tokens := by
  obtain ⟨types, hne, htypes⟩ := types
  refine ⟨⟨tokens, fun hnil => hne ?_, fun token htoken => ?_⟩, rfl⟩
  · rw [hnil, List.map_nil] at h
    exact List.map_eq_nil_iff.mp h.symm
  · have hmem := List.mem_map_of_mem (f := Token.word) htoken
    rw [h, List.mem_map] at hmem
    obtain ⟨token', htoken', hword⟩ := hmem
    rw [← Token.kind_eq hword]
    exact htypes token' htoken'

/-! ## Phrases -/

/-- **Tokens with the same words derive from a phrase that is built alike.** -/
theorem Phrase.retoken {n : Nonterminal} (p : Phrase n) {tokens : List Token}
    (h : tokens.map Token.word = p.tokens.map Token.word) :
    ∃ p' : Phrase n, p'.tokens = tokens ∧
      ∀ options depth, Alike (p.build options depth) (p'.build options depth) := by
  induction p generalizing tokens with
  | expression token =>
    obtain ⟨token', rest, rfl, htoken, hrest⟩ := words_eq_cons h
    obtain rfl := List.map_eq_nil_iff.mp hrest
    refine ⟨.expression ⟨token', Token.kind_eq htoken ▸ token.2⟩, rfl, fun _ _ => ?_⟩
    exact (Alike.addBlock (by rw [Block.plain, Block.plain, Token.plain_eq_iff.mpr htoken])).map _
  | reference name =>
    obtain ⟨name', rest, rfl, hname, hrest⟩ := words_eq_cons h
    obtain rfl := List.map_eq_nil_iff.mp hrest
    refine ⟨.reference ⟨name', Token.kind_eq hname ▸ name.2⟩, rfl, fun _ _ => ?_⟩
    exact (Alike.addReference hname).map _
  | call name keyword =>
    obtain ⟨name', rest, rfl, hname, hrest⟩ := words_eq_cons h
    obtain ⟨keyword', rest, rfl, hkeyword, hrest⟩ := words_eq_cons hrest
    obtain rfl := List.map_eq_nil_iff.mp hrest
    refine ⟨.call ⟨name', Token.kind_eq hname ▸ name.2⟩
      ⟨keyword', Token.kind_eq hkeyword ▸ keyword.2⟩, rfl, fun _ _ => ?_⟩
    exact (Alike.addCall hname keyword.1 keyword').map _
  | cast keyword types =>
    obtain ⟨keyword', rest, rfl, hkeyword, hrest⟩ := words_eq_cons h
    obtain ⟨types', rfl⟩ := types.retoken hrest
    refine ⟨.cast ⟨keyword', Token.kind_eq hkeyword ▸ keyword.2⟩ types', rfl, fun _ _ => ?_⟩
    exact (Alike.addBlock (by rw [Block.plain, Block.plain, map_plain_eq hrest])).map _
  | nested scope ih =>
    obtain ⟨scope', rfl, hscope⟩ := ih h
    exact ⟨.nested scope', rfl, fun options depth => (hscope options depth).map _⟩
  | branch keyword condition body chain ihc ihb ihch =>
    obtain ⟨keyword', rest, rfl, hkeyword, hrest⟩ := words_eq_cons h
    obtain ⟨_, _, rfl, hcs, hrest⟩ := words_eq_append hrest
    obtain ⟨_, _, rfl, hbs, hchs⟩ := words_eq_append hrest
    obtain ⟨condition', rfl, hcondition⟩ := ihc hcs
    obtain ⟨body', rfl, hbody⟩ := ihb hbs
    obtain ⟨chain', rfl, hchain⟩ := ihch hchs
    refine ⟨.branch ⟨keyword', Token.kind_eq hkeyword ▸ keyword.2⟩ condition' body' chain', rfl,
      fun options depth => Alike.takeIndex.bind fun index => ?_⟩
    exact .addBranch keyword.1 keyword' index (hcondition options depth) (hbody options depth)
      (hchain options depth)
  | loop keyword condition body ihc ihb =>
    obtain ⟨keyword', rest, rfl, hkeyword, hrest⟩ := words_eq_cons h
    obtain ⟨_, _, rfl, hcs, hbs⟩ := words_eq_append hrest
    obtain ⟨condition', rfl, hcondition⟩ := ihc hcs
    obtain ⟨body', rfl, hbody⟩ := ihb hbs
    refine ⟨.loop ⟨keyword', Token.kind_eq hkeyword ▸ keyword.2⟩ condition' body', rfl,
      fun options depth => Alike.takeIndex.bind fun index => ?_⟩
    exact (hcondition options depth).bind fun _ => (hbody options depth).bind fun _ =>
      (Alike.addBlock (by rfl)).map _
  | assembly keyword literal =>
    obtain ⟨keyword', rest, rfl, hkeyword, hrest⟩ := words_eq_cons h
    obtain ⟨literal', rest, rfl, hliteral, hrest⟩ := words_eq_cons hrest
    obtain rfl := List.map_eq_nil_iff.mp hrest
    refine ⟨.assembly ⟨keyword', Token.kind_eq hkeyword ▸ keyword.2⟩
      ⟨literal', Token.kind_eq hliteral ▸ literal.2⟩, rfl, fun _ _ => ?_⟩
    exact (Alike.addBlock (by rw [Block.plain, Block.plain, Token.plain_eq_iff.mpr hliteral])).map _
  | nil =>
    obtain rfl := List.map_eq_nil_iff.mp h
    exact ⟨.nil, rfl, fun _ _ => .pure _⟩
  | cons first rest ihf ihr =>
    obtain ⟨_, _, rfl, hfs, hrs⟩ := words_eq_append h
    obtain ⟨first', rfl, hfirst⟩ := ihf hfs
    obtain ⟨rest', rfl, hrest⟩ := ihr hrs
    exact ⟨.cons first' rest', rfl, fun options depth => (hfirst options depth).bind fun _ =>
      (hrest options depth).map _⟩
  | enclosed bracket opener inside closer ih =>
    obtain ⟨opener', rest, rfl, hopener, hrest⟩ := words_eq_cons h
    obtain ⟨_, _, rfl, his, hrest⟩ := words_eq_append hrest
    obtain ⟨closer', rest, rfl, hcloser, hrest⟩ := words_eq_cons hrest
    obtain rfl := List.map_eq_nil_iff.mp hrest
    obtain ⟨inside', rfl, hinside⟩ := ih his
    refine ⟨.enclosed bracket ⟨opener', Token.kind_eq hopener ▸ opener.2⟩ inside'
      ⟨closer', Token.kind_eq hcloser ▸ closer.2⟩, rfl, fun options depth => ?_⟩
    exact (Alike.checkDepth options opener.1 opener' (depth + 1)).bind fun _ =>
      (hinside options (depth + 1)).bind fun _ => .addBlock (by rfl)
  | stop =>
    obtain rfl := List.map_eq_nil_iff.mp h
    exact ⟨.stop, rfl, fun _ _ => .pure _⟩
  | otherwise keyword body ih =>
    obtain ⟨keyword', rest, rfl, hkeyword, hrest⟩ := words_eq_cons h
    obtain ⟨body', rfl, hbody⟩ := ih hrest
    refine ⟨.otherwise ⟨keyword', Token.kind_eq hkeyword ▸ keyword.2⟩ body', rfl,
      fun options depth => Alike.takeIndex.bind fun index => ?_⟩
    exact (hbody options depth).bind fun _ => (Alike.addBlock (by rfl)).map _
  | elseIf keyword condition body chain ihc ihb ihch =>
    obtain ⟨keyword', rest, rfl, hkeyword, hrest⟩ := words_eq_cons h
    obtain ⟨_, _, rfl, hcs, hrest⟩ := words_eq_append hrest
    obtain ⟨_, _, rfl, hbs, hchs⟩ := words_eq_append hrest
    obtain ⟨condition', rfl, hcondition⟩ := ihc hcs
    obtain ⟨body', rfl, hbody⟩ := ihb hbs
    obtain ⟨chain', rfl, hchain⟩ := ihch hchs
    refine ⟨.elseIf ⟨keyword', Token.kind_eq hkeyword ▸ keyword.2⟩ condition' body' chain', rfl,
      fun options depth => Alike.takeIndex.bind fun index => Alike.takeIndex.bind fun inner => ?_⟩
    refine (Alike.addBranch keyword.1 keyword' inner (hcondition options _) (hbody options _)
      (hchain options _)).bind fun _ => ?_
    exact (Alike.addBlock (by rfl)).bind fun _ => (Alike.addBlock (by rfl)).map _

/-- A phrase is built alike from workspaces that are alike. -/
theorem Phrase.alike_self {n : Nonterminal} (p : Phrase n) (options : ParseOptions) (depth : Nat) :
    Alike (p.build options depth) (p.build options depth) := by
  obtain ⟨p', -, hp⟩ := p.retoken rfl
  exact (hp options depth).trans (hp options depth).symm

/-! ## Definitions -/

/-- **A signature without the locations and numbers of its tokens.** -/
def Signature.plain (signature : Signature) : Signature :=
  ⟨signature.requires.map Token.plain, signature.returns.map Token.plain⟩

theorem Signature.plain_add (signature : Signature) (clause : Clause) (types : List Token) :
    (signature.add clause types).plain = signature.plain.add clause (types.map Token.plain) := by
  cases clause <;> simp [add, plain]

/-- A clause that may be missing. -/
theorem ClausePhrase.retoken {word : Keyword} (c : Option (ClausePhrase word)) {tokens : List Token}
    (h : tokens.map Token.word = (c.elim [] ClausePhrase.tokens).map Token.word) :
    ∃ c' : Option (ClausePhrase word), c'.elim [] ClausePhrase.tokens = tokens ∧
      ∀ clause (before before' : Signature), before.plain = before'.plain →
        (c.elim before fun c => before.add clause c.types.1).plain =
          (c'.elim before' fun c => before'.add clause c.types.1).plain := by
  cases c with
  | none =>
    obtain rfl := List.map_eq_nil_iff.mp h
    exact ⟨none, rfl, fun _ _ _ hbefore => hbefore⟩
  | some c =>
    obtain ⟨keyword, rest, rfl, hkeyword, hrest⟩ := words_eq_cons h
    obtain ⟨types, rfl⟩ := c.types.retoken hrest
    refine ⟨some ⟨⟨keyword, Token.kind_eq hkeyword ▸ c.keyword.2⟩, types⟩, rfl, ?_⟩
    intro clause before before' hbefore
    simp only [Option.elim_some, Signature.plain_add, hbefore, map_plain_eq hrest]

theorem SignaturePhrase.retoken (s : SignaturePhrase) {tokens : List Token}
    (h : tokens.map Token.word = s.tokens.map Token.word) :
    ∃ s' : SignaturePhrase, s'.tokens = tokens ∧ ∀ before before' : Signature,
      before.plain = before'.plain → (s.addTo before).plain = (s'.addTo before').plain := by
  obtain ⟨_, _, rfl, hrs, hls⟩ := words_eq_append h
  obtain ⟨requires, rfl, hrequires⟩ := ClausePhrase.retoken s.requires hrs
  obtain ⟨returns, rfl, hreturns⟩ := ClausePhrase.retoken s.returns hls
  refine ⟨⟨requires, returns⟩, rfl, fun before before' hbefore => ?_⟩
  exact hreturns .returns _ _ (hrequires .requires before before' hbefore)

/-- A signature in parentheses, which may be missing. -/
theorem parens_retoken
    (p : Option (Word (.opening .paren) × SignaturePhrase × Word (.closing .paren)))
    {tokens : List Token} (h : tokens.map Token.word = (parensTokens p).map Token.word) :
    ∃ p', parensTokens p' = tokens ∧ (p.elim ({} : Signature) fun p => p.2.1.addTo {}).plain =
      (p'.elim ({} : Signature) fun p => p.2.1.addTo {}).plain := by
  cases p with
  | none =>
    obtain rfl := List.map_eq_nil_iff.mp h
    exact ⟨none, rfl, rfl⟩
  | some p =>
    obtain ⟨opener, signature, closer⟩ := p
    obtain ⟨opener', rest, rfl, hopener, hrest⟩ := words_eq_cons h
    obtain ⟨_, _, rfl, hss, hrest⟩ := words_eq_append hrest
    obtain ⟨closer', rest, rfl, hcloser, hrest⟩ := words_eq_cons hrest
    obtain rfl := List.map_eq_nil_iff.mp hrest
    obtain ⟨signature', rfl, hsignature⟩ := signature.retoken hss
    exact ⟨some (⟨opener', Token.kind_eq hopener ▸ opener.2⟩, signature',
      ⟨closer', Token.kind_eq hcloser ▸ closer.2⟩), rfl, hsignature {} {} rfl⟩

section Definitions

variable {options : ParseOptions} {header header' : Header}

/-- **Functions whose bodies are built alike.** -/
theorem SubjectPhrase.build_function_alike {f f' : FunctionPhrase}
    (hident : header.ident.word = header'.ident.word)
    (hplace : header.place.word = header'.place.word) (htypes : f.types.plain = f'.types.plain)
    (hinside : Alike (f.inside.build options 1) (f'.inside.build options 1)) :
    Alike (SubjectPhrase.build options header (.function f))
      (SubjectPhrase.build options header' (.function f')) := by
  have hentry : (header.ident.text == options.entry) = (header'.ident.text == options.entry) :=
    congrArg (·.2.2 == options.entry) hident
  have hbegin : Alike (beginFunction options header f.types f.opener.1)
      (beginFunction options header' f'.types f'.opener.1) := by
    refine (Alike.addBlock (by rfl)).bind fun body => (Alike.define ?_).bind fun _ =>
      (Alike.checkDepth options f.opener.1 f'.opener.1 1).map _
    obtain ⟨hrequires, hreturns⟩ := Signature.mk.inj htypes
    simp only [Definition.plain, DefinitionBody.plain, Function.plain, hentry, hrequires, hreturns,
      Token.plain_eq_iff.mpr hident, Token.plain_eq_iff.mpr hplace]
  exact hbegin.bind fun body => hinside.bind fun ids => .modifyBlock body (Block.plain_filled ids)

/-- Definitions without a body. -/
theorem Alike.define_data {body body' : DefinitionBody} (location location' : Location)
    (hident : header.ident.word = header'.ident.word)
    (hplace : header.place.word = header'.place.word) (hbody : body.plain = body'.plain) :
    Alike (StackCompiler.define ⟨location, header.ident, header.place, false, 0, body⟩)
      (StackCompiler.define ⟨location', header'.ident, header'.place, false, 0, body'⟩) := by
  refine Alike.define ?_
  simp only [Definition.plain, hbody, Token.plain_eq_iff.mpr hident, Token.plain_eq_iff.mpr hplace]

end Definitions

/-- What is defined. -/
theorem SubjectPhrase.retoken (s : SubjectPhrase) {tokens : List Token}
    (h : tokens.map Token.word = s.tokens.map Token.word) :
    ∃ s' : SubjectPhrase, s'.tokens = tokens ∧ s.family = s'.family ∧ s.name.word = s'.name.word ∧
      ∀ options (header header' : Header), header.ident.word = header'.ident.word →
        header.place.word = header'.place.word →
        Alike (s.build options header) (s'.build options header') := by
  cases s with
  | function f =>
    obtain ⟨keyword, rest, rfl, hkeyword, hrest⟩ := words_eq_cons h
    obtain ⟨name, rest, rfl, hname, hrest⟩ := words_eq_cons hrest
    obtain ⟨_, _, rfl, hps, hrest⟩ := words_eq_append hrest
    obtain ⟨_, _, rfl, hss, hrest⟩ := words_eq_append hrest
    obtain ⟨opener, rest, rfl, hopener, hrest⟩ := words_eq_cons hrest
    obtain ⟨_, _, rfl, his, hrest⟩ := words_eq_append hrest
    obtain ⟨closer, rest, rfl, hcloser, hrest⟩ := words_eq_cons hrest
    obtain rfl := List.map_eq_nil_iff.mp hrest
    obtain ⟨parens, rfl, hparens⟩ := parens_retoken f.parens hps
    obtain ⟨signature, rfl, hsignature⟩ := f.signature.retoken hss
    obtain ⟨inside, rfl, hinside⟩ := f.inside.retoken his
    refine ⟨.function ⟨⟨keyword, Token.kind_eq hkeyword ▸ f.keyword.2⟩,
      ⟨name, Token.kind_eq hname ▸ f.name.2⟩, parens, signature,
      ⟨opener, Token.kind_eq hopener ▸ f.opener.2⟩, inside,
      ⟨closer, Token.kind_eq hcloser ▸ f.closer.2⟩⟩, rfl, rfl, hname, ?_⟩
    intro options header header' hident hplace
    exact SubjectPhrase.build_function_alike hident hplace (hsignature _ _ hparens)
      (hinside options 1)
  | memory m =>
    obtain ⟨keyword, rest, rfl, hkeyword, hrest⟩ := words_eq_cons h
    obtain ⟨name, rest, rfl, hname, hrest⟩ := words_eq_cons hrest
    obtain ⟨capacity, rest, rfl, hcapacity, hrest⟩ := words_eq_cons hrest
    obtain rfl := List.map_eq_nil_iff.mp hrest
    have hsize : IsSize capacity := by
      have hkind := Token.kind_eq hcapacity
      have hvalue : m.capacity.1.value = capacity.value := congrArg (·.2.1) hcapacity
      rw [IsSize, ← hkind, ← hvalue]
      exact m.capacity.2
    refine ⟨.memory ⟨⟨keyword, Token.kind_eq hkeyword ▸ m.keyword.2⟩,
      ⟨name, Token.kind_eq hname ▸ m.name.2⟩, ⟨capacity, hsize⟩⟩, rfl, rfl, hname, ?_⟩
    intro options header header' hident hplace
    exact .define_data _ _ hident hplace
      (congrArg DefinitionBody.memory (Token.plain_eq_iff.mpr hcapacity))
  | string t =>
    obtain ⟨keyword, rest, rfl, hkeyword, hrest⟩ := words_eq_cons h
    obtain ⟨name, rest, rfl, hname, hrest⟩ := words_eq_cons hrest
    obtain ⟨literal, rest, rfl, hliteral, hrest⟩ := words_eq_cons hrest
    obtain rfl := List.map_eq_nil_iff.mp hrest
    refine ⟨.string ⟨⟨keyword, Token.kind_eq hkeyword ▸ t.keyword.2⟩,
      ⟨name, Token.kind_eq hname ▸ t.name.2⟩, ⟨literal, Token.kind_eq hliteral ▸ t.literal.2⟩⟩, rfl,
      rfl, hname, ?_⟩
    intro options header header' hident hplace
    exact .define_data _ _ hident hplace
      (congrArg DefinitionBody.string (Token.plain_eq_iff.mpr hliteral))

/-- **Tokens with the same words derive from a definition that is built alike.** -/
theorem DefinitionPhrase.retoken (d : DefinitionPhrase) {tokens : List Token}
    (h : tokens.map Token.word = d.tokens.map Token.word) :
    ∃ d' : DefinitionPhrase, d'.tokens = tokens ∧
      ∀ options, Alike (d.build options) (d'.build options) := by
  obtain ⟨place, subject⟩ := d
  obtain ⟨_, _, rfl, hps, hss⟩ := words_eq_append h
  obtain ⟨subject', rfl, hfamily, hname, hsubject⟩ := subject.retoken hss
  cases place with
  | none =>
    obtain rfl := List.map_eq_nil_iff.mp hps
    refine ⟨⟨none, subject'⟩, rfl, fun options => (Alike.checkName hname).bind fun _ => ?_⟩
    refine hsubject options _ _ hname ?_
    simp only [DefinitionPhrase.header, placeToken, Option.elim_none, ← hfamily]
    rfl
  | some place =>
    obtain ⟨keyword, rest, rfl, hkeyword, hrest⟩ := words_eq_cons hps
    obtain ⟨target, rest, rfl, htarget, hrest⟩ := words_eq_cons hrest
    obtain rfl := List.map_eq_nil_iff.mp hrest
    refine ⟨⟨some (⟨keyword, Token.kind_eq hkeyword ▸ place.1.2⟩,
      ⟨target, Token.kind_eq htarget ▸ place.2.2⟩), subject'⟩, rfl, fun options => ?_⟩
    exact (Alike.checkName hname).bind fun _ => hsubject options _ _ hname htarget

theorem DefinitionPhrase.alike_self (d : DefinitionPhrase) (options : ParseOptions) :
    Alike (d.build options) (d.build options) := by
  obtain ⟨d', -, hd⟩ := d.retoken rfl
  exact (hd options).trans (hd options).symm

/-- **Tokens with the same words derive from definitions that are built alike.** -/
theorem definitions_retoken (ds : List DefinitionPhrase) {tokens : List Token}
    (h : tokens.map Token.word = (ds.flatMap DefinitionPhrase.tokens).map Token.word) :
    ∃ ds' : List DefinitionPhrase, ds'.flatMap DefinitionPhrase.tokens = tokens ∧
      ∀ options, Alike (ds.forM (DefinitionPhrase.build options))
        (ds'.forM (DefinitionPhrase.build options)) := by
  induction ds generalizing tokens with
  | nil =>
    obtain rfl := List.map_eq_nil_iff.mp h
    exact ⟨[], rfl, fun _ => .pure _⟩
  | cons d ds ih =>
    obtain ⟨_, _, rfl, hfirst, hrest⟩ := words_eq_append h
    obtain ⟨d', rfl, hd⟩ := d.retoken hfirst
    obtain ⟨ds', rfl, hds⟩ := ih hrest
    exact ⟨d' :: ds', rfl, fun options => (hd options).bind fun _ => hds options⟩

theorem definitions_alike_self (ds : List DefinitionPhrase) (options : ParseOptions) :
    Alike (ds.forM (DefinitionPhrase.build options))
      (ds.forM (DefinitionPhrase.build options)) := by
  obtain ⟨ds', -, hds⟩ := definitions_retoken ds rfl
  exact (hds options).trans (hds options).symm

end StackCompiler
