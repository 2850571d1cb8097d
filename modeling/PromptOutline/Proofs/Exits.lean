import PromptOutline.Proofs.OutputFile

/-!
# How runs end

A run checks its arguments, opens its output, makes its text and delivers it; the first of these
stages that fails ends it. `Exit` lists the ends of a run, each with what the stages before it left.
An outline with problems is the only end with the exit code 255, and a run changes nothing but the
file it writes.
-/

namespace PromptOutline

/-- Texts joined with nothing between them. -/
theorem Text.toList_joinWith_empty (parts : List String) :
    (joinWith "" parts).toList = parts.flatMap String.toList := by
  induction parts with
  | nil => rfl
  | cons part parts ih =>
    cases parts with
    | nil => simp [joinWith]
    | cons next parts =>
      rw [joinWith, String.intercalate_cons_cons, ← joinWith, String.append_empty,
        String.toList_append, ih]
      rfl

namespace Workspace

variable {w w' : Workspace} {l : Location}

/-- `SameBeside l w w'`: the workspaces differ at most in what stands at `l`. -/
structure SameBeside (l : Location) (w w' : Workspace) : Prop where
  here : w'.here = w.here
  others : ∀ k ≠ l, w'.tree.get? k = w.tree.get? k

namespace SameBeside

private theorem refl (l : Location) (w : Workspace) : SameBeside l w w := ⟨rfl, fun _ _ => rfl⟩

private theorem trans {w'' : Workspace} (h : SameBeside l w w') (h' : SameBeside l w' w'') :
    SameBeside l w w'' :=
  ⟨h'.here.trans h.here, fun k hk => (h'.others k hk).trans (h.others k hk)⟩

private theorem set (hl : l ≠ []) (w : Workspace) (e : Entry) :
    SameBeside l w { w with tree := w.tree.set l e } :=
  ⟨rfl, fun k hk => by rw [FileTree.get?_set hl, if_neg hk]⟩

end SameBeside

private theorem ne_nil_of_create {path : String} (h : w.create path = .ok (w', l)) : l ≠ [] := by
  obtain ⟨-, parts, directory, name, -, -, -, -, -, rfl, -⟩ :=
    locateForWriting_eq_ok (locateForWriting_of_create h)
  simp

private theorem sameBeside_of_create {path : String} (h : w.create path = .ok (w', l)) :
    SameBeside l w w' := by
  have hne := ne_nil_of_create h
  unfold create at h
  split at h
  · cases h
  · split at h
    · cases h
      exact .refl l w
    · cases h
    · cases h
      exact .set hne w _

private theorem sameBeside_of_write {text : String} (hl : l ≠ []) (h : w.write l text = .ok w') :
    SameBeside l w w' := by
  unfold write at h
  split at h
  · split at h
    · cases h
      exact .refl l w
    · cases h
  · cases h
    exact .set hl w _

end Workspace

namespace Command

variable {w : Workspace} {a : Arguments}

/-! ### The stages -/

private theorem Fault.code_eq_iff (f : Fault) : f.code = 255 ↔ ∃ found, f = .problems found := by
  cases f <;> simp [Fault.code]

/-- The settings that a run works with: the directories of the command line are searched first. -/
def Arguments.over (a : Arguments) (s : Settings) : Settings :=
  { s with searchPaths := a.searchPaths ++ s.searchPaths }

/-- What is checked before anything is opened, with the settings that were built. -/
structure Checked (w : Workspace) (a : Arguments) (s : Settings) : Prop where
  input : w.exists? a.input = true
  named : ∀ path ∈ a.searchPaths, w.isDirectory path = true
  built : Settings.build w a.layers = .ok s
  configured : ∀ path ∈ s.searchPaths, w.isDirectory path = true

private theorem checkDirectories_eq_ok_iff {paths : List String} :
    checkDirectories w paths = .ok () ↔ ∀ path ∈ paths, w.isDirectory path = true := by
  have hnone : (paths.find? fun path => !w.isDirectory path) = none ↔
      ∀ path ∈ paths, w.isDirectory path = true := by simp
  unfold checkDirectories
  split
  · next path hpath => simp [← hnone, hpath]
  · next hpath => simp [← hnone, hpath]

private theorem code_of_checkDirectories {paths : List String} {fault : Fault}
    (h : checkDirectories w paths = .error fault) : fault.code = 1 := by
  unfold checkDirectories at h
  split at h
  · cases h
    rfl
  · cases h

/-- The checks pass, or they end the run with the exit code 1. -/
theorem plan_cases (w : Workspace) (a : Arguments) :
    (∃ s, Checked w a s ∧ plan w a = .ok (a.over s)) ∨
      (∃ fault, plan w a = .error fault ∧ fault.code = 1) ∧ ∀ s, ¬ Checked w a s := by
  unfold plan
  split
  · next hinput => exact .inr ⟨⟨_, rfl, rfl⟩, fun s hs => by simp [hs.input] at hinput⟩
  · next hinput =>
    cases hnamed : checkDirectories w a.searchPaths with
    | error fault =>
      refine .inr ⟨⟨fault, rfl, code_of_checkDirectories hnamed⟩, fun s hs => ?_⟩
      rw [checkDirectories_eq_ok_iff.mpr hs.named] at hnamed
      cases hnamed
    | ok =>
      cases hbuilt : Settings.build w a.layers with
      | error fault => exact .inr ⟨⟨_, rfl, rfl⟩, fun s hs => by cases hs.built.symm.trans hbuilt⟩
      | ok s =>
        cases hconfigured : checkDirectories w s.searchPaths with
        | error fault =>
          refine .inr ⟨⟨fault, ?_, code_of_checkDirectories hconfigured⟩, fun t ht => ?_⟩
          · simp [hconfigured, bind, Except.bind]
          · cases ht.built.symm.trans hbuilt
            rw [checkDirectories_eq_ok_iff.mpr ht.configured] at hconfigured
            cases hconfigured
        | ok =>
          refine .inl ⟨s, ⟨by simpa using hinput, checkDirectories_eq_ok_iff.mp hnamed, hbuilt,
            checkDirectories_eq_ok_iff.mp hconfigured⟩, ?_⟩
          simp [hconfigured, bind, Except.bind, Arguments.over]

/-- The output stream, or the file that the command line names, is opened. -/
theorem openOutput_eq_ok {opened : Workspace} {output : Option String} {target : Option Location}
    (h : openOutput w output = .ok (opened, target)) :
    output = none ∧ opened = w ∧ target = none ∨
      ∃ path l, output = some path ∧ target = some l ∧ w.create path = .ok (opened, l) := by
  cases output with
  | none =>
    cases h
    exact .inl ⟨rfl, rfl, rfl⟩
  | some path =>
    simp only [openOutput] at h
    split at h
    · next hcreate =>
      cases h
      exact .inr ⟨path, _, rfl, rfl, hcreate⟩
    · cases h

private theorem code_of_openOutput {output : Option String} {fault : Fault}
    (h : openOutput w output = .error fault) : fault.code = 1 := by
  cases output with
  | none => cases h
  | some path =>
    simp only [openOutput] at h
    split at h
    · cases h
    · cases h
      rfl

/-- Problems are what reading the outline finds, in any format but that of tokens. -/
theorem render_eq_problems_iff {input : String} {s : Settings} {found : List Diagnostic} :
    render w input s = .error (.problems found) ↔ s.format ≠ .tokens ∧
      Compile.file w { width := s.width.toUInt64, searchPaths := s.searchPaths } input =
        .error found := by
  have hdocument : renderDocument w input s = .error (.problems found) ↔
      Compile.file w { width := s.width.toUInt64, searchPaths := s.searchPaths } input =
        .error found := by
    delta renderDocument
    split
    · next problems hproblems => simp [hproblems]
    · next d hd => split <;> simp [hd]
  have htokens : renderTokens w input s.width.toUInt64 ≠ .error (.problems found) := by
    unfold renderTokens
    split <;> simp
  unfold render
  generalize s.format = format
  cases format with
  | tokens => simpa using htokens
  | _ => simpa using hdocument

private theorem code_of_deliver {target : Option Location} {text : String} {fault : Fault}
    (h : deliver w target text = .error fault) : fault.code = 1 := by
  unfold deliver at h
  split at h
  · cases h
  · split at h
    · cases h
    · cases h
      rfl

/-! ### The ends of a run -/

/-- How a run with arguments that have been read ends, and what the stages before left. -/
inductive Exit (w : Workspace) (a : Arguments) : Result → Prop where
  | unchecked {fault : Fault} (hchecks : ∀ s, ¬ Checked w a s) (hcode : fault.code = 1) :
    Exit w a (fault.result w)
  | unopened {s : Settings} {fault : Fault} (hchecked : Checked w a s)
      (hopen : openOutput w a.output = .error fault) : Exit w a (fault.result w)
  | unrendered {s : Settings} {opened : Workspace} {target : Option Location} {fault : Fault}
      (hchecked : Checked w a s) (hopen : openOutput w a.output = .ok (opened, target))
      (hrender : render opened a.input (a.over s) = .error fault) : Exit w a (fault.result opened)
  | undelivered {s : Settings} {opened : Workspace} {target : Option Location} {text : String}
      {fault : Fault} (hchecked : Checked w a s)
      (hopen : openOutput w a.output = .ok (opened, target))
      (hdeliver : deliver opened target text = .error fault) : Exit w a (fault.result opened)
  | delivered {s : Settings} {opened done : Workspace} {target : Option Location}
      {text out : String} (hchecked : Checked w a s)
      (hopen : openOutput w a.output = .ok (opened, target))
      (hdeliver : deliver opened target text = .ok (done, out)) :
    Exit w a { code := 0, out, workspace := done }

private theorem exit_execute (w : Workspace) (a : Arguments) : Exit w a (execute w a) := by
  unfold execute
  rcases plan_cases w a with ⟨s, hchecked, hplan⟩ | ⟨⟨fault, hplan, hcode⟩, hchecks⟩
  · rw [hplan]
    dsimp only
    cases hopen : openOutput w a.output with
    | error fault => exact .unopened hchecked hopen
    | ok outcome =>
      obtain ⟨opened, target⟩ := outcome
      dsimp only
      cases hrender : render opened a.input (a.over s) with
      | error fault => exact .unrendered hchecked hopen hrender
      | ok text =>
        cases hdeliver : deliver opened target text with
        | error fault =>
          simp only [bind, Except.bind, hdeliver]
          exact .undelivered hchecked hopen hdeliver
        | ok outcome =>
          simp only [bind, Except.bind, hdeliver]
          exact .delivered hchecked hopen hdeliver
  · rw [hplan]
    exact .unchecked hchecks hcode

/-- `Rejected w a found`: all checks pass and the output is opened, the format is not that of
tokens, and reading the outline, in the workspace as opening the output left it, finds the problems
`found`. -/
def Rejected (w : Workspace) (a : Arguments) (found : List Diagnostic) : Prop :=
  ∃ s opened target, Checked w a s ∧ openOutput w a.output = .ok (opened, target) ∧
    s.format ≠ .tokens ∧ Compile.file opened
      { width := s.width.toUInt64, searchPaths := a.searchPaths ++ s.searchPaths } a.input =
        .error found

namespace Exit

variable {r : Result} (h : Exit w a r)
include h

private theorem rejected_of_code (hcode : r.code = 255) : ∃ found, Rejected w a found := by
  cases h with
  | unchecked _ hfault => cases hfault.symm.trans hcode
  | unopened _ hopen => cases (code_of_openOutput hopen).symm.trans hcode
  | undelivered _ _ hdeliver => cases (code_of_deliver hdeliver).symm.trans hcode
  | delivered => cases hcode
  | unrendered hchecked hopen hrender =>
    obtain ⟨found, rfl⟩ := (Fault.code_eq_iff _).mp hcode
    obtain ⟨hformat, hfound⟩ := render_eq_problems_iff.mp hrender
    exact ⟨found, _, _, _, hchecked, hopen, hformat, hfound⟩

private theorem out_of_code (hcode : r.code ≠ 0) : r.out = "" := by
  cases h with
  | delivered => exact absurd rfl hcode
  | _ => rfl

/-- A run leaves the workspace as it is, or its checks passed and it changes at most the file that
it opened. -/
theorem changes : r.workspace = w ∨ ∃ s path l opened, Checked w a s ∧ a.output = some path ∧
    w.create path = .ok (opened, l) ∧ w.SameBeside l r.workspace := by
  have hopened {s : Settings} {opened : Workspace} {target : Option Location}
      (hchecked : Checked w a s) (hopen : openOutput w a.output = .ok (opened, target)) :
      opened = w ∧ target = none ∨ ∃ s path l, Checked w a s ∧ a.output = some path ∧
        target = some l ∧ w.create path = .ok (opened, l) := by
    rcases openOutput_eq_ok hopen with ⟨-, rfl, rfl⟩ | ⟨path, l, hpath, rfl, hcreate⟩
    · exact .inl ⟨rfl, rfl⟩
    · exact .inr ⟨s, path, l, hchecked, hpath, rfl, hcreate⟩
  cases h with
  | unchecked | unopened => exact .inl rfl
  | unrendered hchecked hopen | undelivered hchecked hopen =>
    rcases hopened hchecked hopen with ⟨rfl, -⟩ | ⟨s, path, l, hs, hpath, -, hcreate⟩
    · exact .inl rfl
    · exact .inr ⟨s, path, l, _, hs, hpath, hcreate, Workspace.sameBeside_of_create hcreate⟩
  | @delivered s opened done target text out hchecked hopen hdeliver =>
    rcases hopened hchecked hopen with ⟨rfl, rfl⟩ | ⟨s, path, l, hs, hpath, rfl, hcreate⟩
    · cases hdeliver
      exact .inl rfl
    · refine .inr ⟨s, path, l, opened, hs, hpath, hcreate, ?_⟩
      simp only [deliver] at hdeliver
      split at hdeliver
      · next hwrite =>
        cases hdeliver
        exact (Workspace.sameBeside_of_create hcreate).trans
          (Workspace.sameBeside_of_write (Workspace.ne_nil_of_create hcreate) hwrite)
      · cases hdeliver

end Exit

private theorem execute_of_rejected {found : List Diagnostic} (h : Rejected w a found) :
    ∃ opened, execute w a = (Fault.problems found).result opened := by
  obtain ⟨s, opened, target, hchecked, hopen, hformat, hfound⟩ := h
  have hrender : render opened a.input (a.over s) = .error (.problems found) :=
    render_eq_problems_iff.mpr ⟨hformat, hfound⟩
  refine ⟨opened, ?_⟩
  rcases plan_cases w a with ⟨t, ht, hplan⟩ | ⟨-, hchecks⟩
  · cases ht.built.symm.trans hchecked.built
    simp only [execute, hplan, hopen, hrender, bind, Except.bind]
  · exact absurd hchecked (hchecks s)

/-- Problems are listed one behind another, each below a divider. -/
theorem toList_listing (found : List Diagnostic) : (Fault.listing found).toList =
    (found.flatMap fun d => "----------------\n".toList ++ d.render.toList ++ ['\n']) ++
      "----------------\n\n".toList := by
  rw [Fault.listing, String.toList_append, String.toList_append, Text.toList_joinWith_empty,
    List.flatMap_map, List.append_assoc]
  simp [Fault.divider]

/-- How a run ends, for a command line that can be read. The exit code is 255 just if all checks
pass, the output is opened, the format is not that of tokens, and the outline has problems as the
opened output leaves it; then the error stream holds each problem behind a dividing line, in order,
and at the end a dividing line and an empty one. Nothing is printed unless the run succeeds. Nothing
is changed but the file to write, and that one only if the checks that come before have passed. -/
theorem exit_of_run {words : List String} (h : Arguments.parse words = .ok a) :
    ((run w words).code = 255 ↔ ∃ found, Rejected w a found) ∧
    (∀ found, Rejected w a found → (run w words).err.toList =
      (found.flatMap fun d => "----------------\n".toList ++ d.render.toList ++ ['\n']) ++
        "----------------\n\n".toList) ∧
    ((run w words).code ≠ 0 → (run w words).out = "") ∧
    ((run w words).workspace = w ∨ ∃ s path l opened, Checked w a s ∧ a.output = some path ∧
      w.create path = .ok (opened, l) ∧ w.SameBeside l (run w words).workspace) := by
  have hrun : run w words = execute w a := by rw [run, h]
  have hexit := exit_execute w a
  rw [hrun]
  refine ⟨⟨hexit.rejected_of_code, ?_⟩, ?_, hexit.out_of_code, hexit.changes⟩
  · rintro ⟨found, hfound⟩
    obtain ⟨opened, hexecute⟩ := execute_of_rejected hfound
    rw [hexecute]
    rfl
  · intro found hfound
    obtain ⟨opened, hexecute⟩ := execute_of_rejected hfound
    rw [hexecute]
    exact toList_listing found

/-- An outline that includes another one from a library, which defines the role once more, and a
file. -/
def redefinedWorkspace : Workspace where
  tree.entries :=
    [(["main.m6r"], .file (Text.Utf8.encode "Role:\n    r\nInclude: part.m6r\n")),
      (["lib"], .directory), (["lib", "part.m6r"], .file (Text.Utf8.encode "Role:\n    s\n")),
      (["out.txt"], .file (Text.Utf8.encode "old\n"))]

/-- The second role is a problem: it is listed, and nothing is printed. -/
theorem exit_of_run_redefined :
    Arguments.parse ["main.m6r", "-I", "lib", "-o", "out.txt"] =
        .ok { input := "main.m6r", searchPaths := ["lib"], output := some "out.txt" } ∧
      (run redefinedWorkspace ["main.m6r", "-I", "lib", "-o", "out.txt"]).code = 255 ∧
      (run redefinedWorkspace ["main.m6r", "-I", "lib", "-o", "out.txt"]).err =
        "----------------\n'Role' already defined: line 1, column 1, file lib/part.m6r\n|\n" ++
          "v\nRole:\n----------------\n\n" ∧
      (run redefinedWorkspace ["main.m6r", "-I", "lib", "-o", "out.txt"]).out = "" := by
  have hwords : Arguments.parse ["main.m6r", "-I", "lib", "-o", "out.txt"] =
      .ok { input := "main.m6r", searchPaths := ["lib"], output := some "out.txt" } := by
    decide +kernel
  obtain ⟨opened, hopened⟩ : ∃ opened, opened =
      { redefinedWorkspace with tree := redefinedWorkspace.tree.set ["out.txt"] (.file []) } :=
    ⟨_, rfl⟩
  have hcreate : openOutput redefinedWorkspace (some "out.txt") =
      .ok (opened, some ["out.txt"]) := by rw [hopened]; decide +kernel
  have hchecked : Checked redefinedWorkspace
      { input := "main.m6r", searchPaths := ["lib"], output := some "out.txt" }
      { width := 4, searchPaths := [], format := .prompt, preamble := true } :=
    ⟨by decide +kernel, by decide +kernel, by decide +kernel, by decide⟩
  obtain ⟨x, hx⟩ : ∃ x, x = Round.after opened 4 30
      (Origin.start opened 4 ["lib"] (.file "main.m6r")) := ⟨_, rfl⟩
  have hproblems : x.problems? = some
      [⟨"'Role' already defined", "lib/part.m6r", 1, 1, "Role:"⟩] := by
    rw [hx, hopened]
    decide +kernel
  have hparse : Compile.parseFile opened 4 ["lib"] "main.m6r" =
      .error [⟨"'Role' already defined", "lib/part.m6r", 1, 1, "Role:"⟩] :=
    Origin.parse_of_ended (hx.symm.trans (Round.ended_of_problems? hproblems))
  have hrejected : Rejected redefinedWorkspace
      { input := "main.m6r", searchPaths := ["lib"], output := some "out.txt" }
      [⟨"'Role' already defined", "lib/part.m6r", 1, 1, "Role:"⟩] := by
    refine ⟨_, opened, _, hchecked, hcreate, by decide, ?_⟩
    delta Compile.file
    exact congrArg (Except.map _) hparse
  obtain ⟨hcode, herr, hout, -⟩ := exit_of_run (w := redefinedWorkspace) hwords
  have hrun := hcode.mpr ⟨_, hrejected⟩
  refine ⟨hwords, hrun, String.toList_injective ?_, hout (by rw [hrun]; decide)⟩
  rw [herr _ hrejected]
  decide +kernel

end Command

end PromptOutline
