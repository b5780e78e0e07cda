import StackCompiler.Proofs.Command.Journal
import StackCompiler.Proofs.Command.Tree

/-!
# The first pair that fails

A run compiles its pairs from left to right and stops at the first that fails. What the pairs before
it have written stays, and the pairs behind it are never looked at.

* `PairCourse`: pairs that are compiled one after the other.
* `compilePairs_course`: every run is a course up to its end or to the first pair that fails.
* `FileMap.Keeps`: what a pair has written is still there.
* **`FileMap.runRequest_stops`**: the whole run.
-/

namespace StackCompiler

/-- The pairs of sources and outputs in a list of paths. -/
def pairsOf : List String → List (String × String)
  | source :: output :: rest => (source, output) :: pairsOf rest
  | _ => []

section PairCourse

variable {σ : Type} [Host (StateM σ)] {settings : Settings}

/-- **Pairs that are compiled one after the other**, each with success. -/
inductive PairCourse (settings : Settings) : σ → List (String × String) → σ → Prop where
  | nil (s : σ) : PairCourse settings s [] s
  | cons {s s' s'' : σ} {pair : String × String} {rest : List (String × String)}
      (h : runIn (compileFile settings pair.1 pair.2) s = (.ok (), s'))
      (hrest : PairCourse settings s' rest s'') : PairCourse settings s (pair :: rest) s''

/-- Every pair of a course has its place in it. -/
theorem PairCourse.split {s s' : σ} {first others : List (String × String)} {pair : String × String}
    (h : PairCourse settings s (first ++ pair :: others) s') : ∃ before after,
      PairCourse settings s first before ∧
        runIn (compileFile settings pair.1 pair.2) before = (.ok (), after) ∧
          PairCourse settings after others s' := by
  induction first generalizing s with
  | nil =>
    cases h with
    | cons hpair hrest => exact ⟨_, _, .nil s, hpair, hrest⟩
  | cons other first ih =>
    cases h with
    | cons hother hrest =>
      obtain ⟨before, after, hfirst, hpair, hothers⟩ := ih hrest
      exact ⟨before, after, .cons hother hfirst, hpair, hothers⟩

/-- **Every run is a course up to its end or to the first pair that fails.** -/
theorem compilePairs_course (settings : Settings) (paths : List String) (s : σ) :
    ∃ done rest middle, pairsOf paths = done ++ rest ∧ PairCourse settings s done middle ∧
      match rest with
      | [] => runIn (compilePairs settings paths) s = (.ok (), middle)
      | pair :: _ => ∃ message after,
          runIn (compileFile settings pair.1 pair.2) middle = (.error message, after) ∧
            runIn (compilePairs settings paths) s = (.error message, after) := by
  induction paths using pairsOf.induct generalizing s with
  | case1 source output paths ih =>
    rw [pairsOf, compilePairs, runIn_bind]
    rcases hpair : runIn (compileFile settings source output) s with ⟨message | u, s'⟩
    · exact ⟨[], _, s, rfl, .nil s, message, s', hpair, rfl⟩
    · obtain ⟨done, rest, middle, hpairs, hdone, hrest⟩ := ih s'
      exact ⟨(source, output) :: done, rest, middle, by rw [hpairs]; rfl, .cons hpair hdone, hrest⟩
  | case2 paths hpaths =>
    refine ⟨[], [], s, ?_, .nil s, ?_⟩
    · rw [pairsOf]
      · rfl
      · exact hpaths
    · dsimp only
      rw [compilePairs]
      · rfl
      · exact hpaths

end PairCourse

theorem runRequest_run {σ : Type} [Host (StateM σ)] (settings : Settings) (paths : List String)
    (s : σ) : runRequest (m := StateM σ) (.run settings paths) s =
      match runIn (runPairs settings paths) s with
      | (.ok _, s') => (0, s')
      | (.error message, s') => (1, (Host.report (m := StateM σ) ("error: " ++ message) s').2) := by
  have hbind {α β : Type} (x : StateM σ α) (f : α → StateM σ β) :
      (x >>= f) s = f (x s).1 (x s).2 := rfl
  have hrun : (runPairs settings paths : ExceptT String (StateM σ) Unit).run s =
      runIn (runPairs settings paths) s := rfl
  rw [runRequest, hbind, hrun]
  rcases runIn (runPairs settings paths) s with ⟨message | u, s'⟩ <;> rfl

/-- A path that is left over ends the run at once. -/
theorem runRequest_odd {σ : Type} [Host (StateM σ)] (settings : Settings) {paths : List String}
    (h : paths.length % 2 = 1) (s : σ) :
    ∃ line, runRequest (m := StateM σ) (.run settings paths) s =
      (1, (Host.report (m := StateM σ) line s).2) := by
  rw [runRequest_run, runPairs, if_neg (by omega)]
  exact ⟨_, rfl⟩

namespace FileMap

variable {σ : Type} [Host (StateM σ)] (F : FileMap σ)

/-- **A run ends**: with success behind its last pair, or with failure at a pair. Then the operations
of this pair are the last ones, and are on its own paths; and if its source was rejected, every file
is as it was when the pair began. -/
inductive Ends (settings : Settings) (middle : Recorded σ) :
    List (String × String) → Nat → Recorded σ → Prop where
  | success : Ends settings middle [] 0 middle
  | failure {pair : String × String} {later : List (String × String)} {message : String}
      {after final : Recorded σ}
      (hfails : runIn (compileFile settings pair.1 pair.2) middle = (.error message, after))
      (hoperations : final.operations = after.operations)
      (hfiles : F.bytes? final.host = F.bytes? after.host)
      (hleads : F.Leads (pairPaths pair) middle final)
      (hrejected : Rejected settings pair.1 middle.host →
        F.bytes? final.host = F.bytes? middle.host) :
      Ends settings middle (pair :: later) 1 final

/-- **A pair keeps its complete assembly**, and its complete outline if there is one, apart from
files that operations of later pairs were for. -/
def Keeps (settings : Settings) (pair : String × String) (later : List (String × String))
    (before after final : Recorded σ) : Prop :=
  ∃ bytes c more, F.bytes? before.host (F.named pair.1) = some bytes ∧
    Compilation.ofBytes settings bytes = .ok c ∧ (c.emit settings {}).outcome = .ok () ∧
    final.operations = after.operations ++ more ∧
    (∀ operation ∈ more, ∃ pair' ∈ later, operation.path ∈ pairPaths pair') ∧
    (¬ F.Overwritten more (F.named pair.2) →
      F.bytes? final.host (F.named pair.2) = some (c.emit settings {}).bytes) ∧
    (settings.outline = true → ¬ F.Overwritten more (F.named (outlinePath pair.2)) →
      F.bytes? final.host (F.named (outlinePath pair.2)) = some (Utf8.encode c.outlineText.toList))

variable {F} {settings : Settings}

/-- A course works on the paths of its pairs only. -/
theorem leads_of_course {r r' : Recorded σ} {pairs : List (String × String)}
    (h : PairCourse settings r pairs r') : F.Leads (pairs.flatMap pairPaths) r r' := by
  induction h with
  | nil s => exact .refl
  | @cons s s' s'' pair rest hpair _ ih =>
    have hleads := (F.compileFile_mirrors settings pair.1 pair.2).leads s
    rw [hpair] at hleads
    refine (hleads.mono ?_).trans (ih.mono ?_)
    · exact List.subset_append_left _ _
    · exact List.subset_append_right _ _

/-- What a pair has written is there until another operation is for the same file. -/
theorem keeps_of_leads {pair : String × String} {later : List (String × String)}
    {before after final : Recorded σ}
    (hpair : runIn (compileFile settings pair.1 pair.2) before = (.ok (), after))
    (hleads : F.Leads (later.flatMap pairPaths) after final) :
    F.Keeps settings pair later before after final := by
  obtain ⟨bytes, c, hsource, hparsed, houtcome, hassembly, houtline⟩ := F.recorded.compileFile_ok hpair
  obtain ⟨more, hmore, hpaths, hfiles⟩ := hleads
  refine ⟨bytes, c, more, hsource, hparsed, houtcome, hmore, ?_, ?_, ?_⟩
  · exact fun operation hmem => List.mem_flatMap.mp (hpaths operation hmem)
  · exact fun hkept => (hfiles _ hkept).trans hassembly
  · exact fun hwanted hkept => (hfiles _ hkept).trans (houtline hwanted)

theorem compilePairs_mirrors (settings : Settings) (paths : List String) :
    F.Mirrors ((pairsOf paths).flatMap pairPaths) (compilePairs settings paths)
      (compilePairs settings paths) := by
  induction paths using pairsOf.induct with
  | case1 source output paths ih =>
    rw [pairsOf, compilePairs, compilePairs]
    refine ((F.compileFile_mirrors settings source output).mono ?_).bind fun _ => ih.mono ?_
    · exact List.subset_append_left _ _
    · exact List.subset_append_right _ _
  | case2 paths hpaths =>
    rw [compilePairs, compilePairs]
    · exact .pure ()
    · exact hpaths
    · exact hpaths

/-- **The record changes nothing about a run.** -/
theorem runRequest_recorded (F : FileMap σ) (settings : Settings) (paths : List String)
    (r : Recorded σ) :
    runRequest (m := StateM σ) (.run settings paths) r.host =
      ((runRequest (m := StateM (Recorded σ)) (.run settings paths) r).1,
        (runRequest (m := StateM (Recorded σ)) (.run settings paths) r).2.host) := by
  have hsame : runIn (runPairs settings paths) r.host =
      ((runIn (runPairs settings paths) r).1, (runIn (runPairs settings paths) r).2.host) := by
    unfold runPairs
    split
    · exact ((compilePairs_mirrors (F := F) settings paths).same r).symm
    · rfl
  rw [runRequest_run, runRequest_run, hsame]
  rcases runIn (runPairs settings paths) r with ⟨message | u, r'⟩ <;> rfl

/-- Behind the pairs that are done comes the end, or a pair that fails. -/
theorem exists_ends (F : FileMap σ) (settings : Settings) {paths : List String}
    (heven : paths.length % 2 = 0) (r : Recorded σ) :
    ∃ done rest middle, pairsOf paths = done ++ rest ∧ PairCourse settings r done middle ∧
      F.Ends settings middle rest (runRequest (m := StateM (Recorded σ)) (.run settings paths) r).1
        (runRequest (m := StateM (Recorded σ)) (.run settings paths) r).2 := by
  obtain ⟨done, rest, middle, hpairs, hdone, hrest⟩ := compilePairs_course settings paths r
  refine ⟨done, rest, middle, hpairs, hdone, ?_⟩
  rw [runRequest_run, runPairs, if_pos heven]
  cases rest with
  | nil =>
    rw [hrest]
    exact .success
  | cons pair later =>
    obtain ⟨message, after, hfails, hrun⟩ := hrest
    have hleads := (F.compileFile_mirrors settings pair.1 pair.2).leads middle
    have hrejected (h : Rejected settings pair.1 middle) := F.recorded.compileFile_rejected pair.2 h
    rw [hfails] at hleads hrejected
    have hreport := F.report_bytes? ("error: " ++ message) after.host
    rw [hrun]
    refine .failure hfails (List.append_nil _) hreport ?_ fun h => ?_
    · exact hleads.trans ⟨[], rfl, List.forall_mem_nil _, fun file _ => congrFun hreport file⟩
    · exact hreport.trans (hrejected h)

/-- The end of a run works on the paths of the pair that failed only. -/
theorem Ends.leads {middle final : Recorded σ} {rest : List (String × String)} {code : Nat}
    (h : F.Ends settings middle rest code final) :
    F.Leads ((rest.take 1).flatMap pairPaths) middle final := by
  cases h with
  | success => exact .refl
  | failure _ _ _ hleads _ => exact hleads.mono (List.subset_append_left _ _)

/-- **The run stops cleanly at the first pair that fails.** A path that is left over keeps it from
touching any file. Otherwise the pairs are done from left to right, up to the end or to a pair that
fails, and every pair that is done keeps what it has written. -/
theorem runRequest_stops (F : FileMap σ) (settings : Settings) (paths : List String) (s : σ) :
    ∃ code final, runRequest (m := StateM (Recorded σ)) (.run settings paths) ⟨s, []⟩ = (code, final) ∧
      runRequest (m := StateM σ) (.run settings paths) s = (code, final.host) ∧
      (paths.length % 2 = 1 →
        code = 1 ∧ final.operations = [] ∧ F.bytes? final.host = F.bytes? s) ∧
      (paths.length % 2 = 0 → ∃ done rest middle, pairsOf paths = done ++ rest ∧
        PairCourse settings ⟨s, []⟩ done middle ∧ F.Ends settings middle rest code final ∧
        ∀ first pair others, done = first ++ pair :: others → ∃ before after,
          PairCourse settings ⟨s, []⟩ first before ∧
          runIn (compileFile settings pair.1 pair.2) before = (.ok (), after) ∧
          PairCourse settings after others middle ∧
          F.Keeps settings pair (others ++ rest.take 1) before after final) := by
  refine ⟨(runRequest (m := StateM (Recorded σ)) (.run settings paths) ⟨s, []⟩).1,
    (runRequest (m := StateM (Recorded σ)) (.run settings paths) ⟨s, []⟩).2, rfl,
    F.runRequest_recorded settings paths ⟨s, []⟩, fun hodd => ?_, fun heven => ?_⟩
  · obtain ⟨line, hrun⟩ := runRequest_odd settings hodd (⟨s, []⟩ : Recorded σ)
    rw [hrun]
    exact ⟨rfl, rfl, F.report_bytes? line s⟩
  · obtain ⟨done, rest, middle, hpairs, hdone, hends⟩ := F.exists_ends settings heven ⟨s, []⟩
    refine ⟨done, rest, middle, hpairs, hdone, hends, ?_⟩
    rintro first pair others rfl
    obtain ⟨before, after, hfirst, hpair, hothers⟩ := hdone.split
    refine ⟨before, after, hfirst, hpair, hothers, keeps_of_leads hpair ?_⟩
    rw [List.flatMap_append]
    refine ((leads_of_course hothers).mono ?_).trans (hends.leads.mono ?_)
    · exact List.subset_append_left _ _
    · exact List.subset_append_right _ _

/-- Where the first source is absent, reading it is all that is done. -/
theorem runRequest_stops_absent :
    ∃ final, runRequest (m := StateM (Recorded VirtualHost)) (.run {} ["absent", "out", "late", "out"])
        ⟨⟨⟨[(["out"], .file [1])]⟩, []⟩, []⟩ = (1, final) ∧
      final.operations = [.read "absent"] ∧ final.host.bytesAt ["out"] = some [1] := by
  obtain ⟨code, final, hrun, -, -, heven⟩ := VirtualHost.files.runRequest_stops {}
    ["absent", "out", "late", "out"] ⟨⟨[(["out"], .file [1])]⟩, []⟩
  obtain ⟨done, rest, middle, hpairs, hdone, hends, -⟩ := heven rfl
  have hfirst : (runIn (compileFile {} "absent" "out")
      (⟨⟨⟨[(["out"], .file [1])]⟩, []⟩, []⟩ : Recorded VirtualHost)).1.isOk = false := by decide
  cases hdone with
  | cons hpair _ =>
    obtain ⟨rfl, -⟩ := List.cons.inj hpairs
    rw [hpair] at hfirst
    cases hfirst
  | nil =>
    obtain rfl := hpairs
    cases hends with
    | failure hfails hoperations hfiles _ hrejected =>
      obtain ⟨-, rfl⟩ := Prod.mk.inj hfails
      exact ⟨final, hrun, hoperations, congrFun hfiles ["out"]⟩

end FileMap

end StackCompiler
