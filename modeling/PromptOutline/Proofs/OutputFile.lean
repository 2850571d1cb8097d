import PromptOutline.Command
import PromptOutline.Proofs.OpenedReading

/-!
# Output to a file and to the output stream

The output file is opened before the outline is read, which leaves it empty. A run that reads other
files only writes to it what the run without an output file prints, and changes nothing else.
-/

namespace PromptOutline

namespace Command

/-! ### Arguments with an output file -/

private theorem map_output {α : Type} {x : Except Stop α} {f g : α → Choices} {c : Choices}
    {path : String} (hg : ∀ v, g v = { f v with output := some path }) (h : x.map f = .ok c) :
    (∃ v, c = f v) ∧ x.map g = .ok { c with output := some path } := by
  cases x with
  | error stop => cases h
  | ok v =>
    cases h
    exact ⟨⟨v, rfl⟩, congrArg Except.ok (hg v)⟩

private theorem Choices.take_output {c c' : Choices} {s : Switch} {value : String}
    (h : c.take s value = .ok c') (hnone : c'.output = none) (path : String) :
    c.output = none ∧
      take { c with output := some path } s value = .ok { c' with output := some path } := by
  cases s with
  | output =>
    rw [take] at h
    cases hc : c.output with
    | none =>
      rw [hc] at h
      cases h
      cases hnone
    | some other =>
      rw [hc] at h
      cases h
  | searchPath =>
    cases h
    exact ⟨hnone, rfl⟩
  | format | settings | width =>
    rw [take] at h
    obtain ⟨⟨v, rfl⟩, hpath⟩ := map_output (fun v => rfl) h
    exact ⟨hnone, hpath⟩
  | noPreamble | help | version => cases h

private theorem Choices.raise_output {c c' : Choices} {s : Switch} (h : c.raise s = .ok c')
    (hnone : c'.output = none) (path : String) :
    c.output = none ∧
      raise { c with output := some path } s = .ok { c' with output := some path } := by
  cases s with
  | noPreamble =>
    rw [raise] at h ⊢
    split at h
    · cases h
    · next hraised =>
      cases h
      exact ⟨hnone, if_neg hraised⟩
  | _ => cases h

namespace Reading

/-- A reading that has met an output file. -/
def withOutput (r : Reading) (path : String) : Reading :=
  { r with choices := { r.choices with output := some path } }

/-- `Spares f`: where `f` leaves a reading without an output file, there was none before, and `f`
does the same to the reading that has one. -/
def Spares (f : Reading → Except Stop Reading) : Prop :=
  ∀ r r' path, f r = .ok r' → r'.choices.output = none →
    r.choices.output = none ∧ f (r.withOutput path) = .ok (r'.withOutput path)

private theorem Spares.bind {f g : Reading → Except Stop Reading} (hf : Spares f) (hg : Spares g) :
    Spares fun r => f r >>= g := by
  intro r r' path h hnone
  cases hr : f r with
  | error stop => simp [hr, Bind.bind, Except.bind] at h
  | ok m =>
    simp only [hr, Bind.bind, Except.bind] at h
    obtain ⟨hm, hgm⟩ := hg m r' path h hnone
    obtain ⟨hr', hfr⟩ := hf r m path hr hm
    refine ⟨hr', ?_⟩
    simp only [hfr, Bind.bind, Except.bind, hgm]

/-- A change of anything but the output file. -/
theorem spares_ok {change : Reading → Reading}
    (hchoices : ∀ r, (change r).choices = r.choices)
    (hpath : ∀ r path, change (r.withOutput path) = (change r).withOutput path) :
    Spares fun r => .ok (change r) := by
  intro r r' path h hnone
  cases h
  rw [hchoices] at hnone
  exact ⟨hnone, congrArg Except.ok (hpath r path)⟩

private theorem spares_error (stop : Stop) : Spares fun _ => .error stop := by
  intro r r' path h
  cases h

private theorem spares_settled : Spares settled := by
  intro r r' path h hnone
  unfold settled at h
  split at h
  · cases h
  · next hpending =>
    cases h
    refine ⟨hnone, ?_⟩
    rw [settled, show (r.withOutput path).pending = r.pending from rfl, hpending]

private theorem spares_take (s : Switch) (value : String) : Spares (·.take s value) := by
  intro r r' path h hnone
  cases htake : r.choices.take s value with
  | error stop => simp [take, htake, Except.map] at h
  | ok c =>
    simp only [take, htake, Except.map] at h
    cases h
    obtain ⟨hr, hpath⟩ := Choices.take_output htake hnone path
    refine ⟨hr, ?_⟩
    simp only [take, withOutput, hpath, Except.map]

/-- A switch without a value is followed. -/
def raise (r : Reading) (s : Switch) : Except Stop Reading :=
  (r.choices.raise s).map fun choices => { r with choices }

private theorem spares_raise (s : Switch) : Spares (·.raise s) := by
  intro r r' path h hnone
  cases hraise : r.choices.raise s with
  | error stop => simp [raise, hraise, Except.map] at h
  | ok c =>
    simp only [raise, hraise, Except.map] at h
    cases h
    obtain ⟨hr, hpath⟩ := Choices.raise_output hraise hnone path
    refine ⟨hr, ?_⟩
    simp only [raise, withOutput, hpath, Except.map]

private theorem spares_takeInput (s : String) : Spares (·.takeInput s) := by
  intro r r' path h hnone
  dsimp only at h ⊢
  unfold takeInput at h
  split at h
  · cases h
  · next hinput =>
    cases h
    refine ⟨hnone, ?_⟩
    rw [takeInput, show (r.withOutput path).input = r.input from rfl, hinput]
    rfl

private theorem spares_pending (s : Switch) : Spares fun r => .ok { r with pending := some s } :=
  spares_ok (fun _ => rfl) fun _ _ => rfl

private theorem spares_takeLetters (cs : List Char) : Spares (·.takeLetters cs) := by
  induction cs with
  | nil => exact spares_ok (fun _ => rfl) fun _ _ => rfl
  | cons c cs ih =>
    cases hswitch : Switch.ofLetter? c with
    | none =>
      intro r r' path h
      simp [takeLetters, hswitch] at h
    | some s =>
      cases hvalue : s.takesValue with
      | false =>
        have heq : (fun r : Reading => r.takeLetters (c :: cs)) =
            fun r => r.raise s >>= fun r => r.takeLetters cs := by
          funext r
          simp only [takeLetters, hswitch, hvalue, raise]
          cases r.choices.raise s <;> rfl
        rw [heq]
        exact (spares_raise s).bind ih
      | true =>
        simp only [takeLetters, hswitch, hvalue, if_true]
        split
        · exact spares_pending s
        · exact spares_take s _
        · exact spares_take s _

private theorem spares_takeLong (name : String) (value : Option String) :
    Spares (·.takeLong name value) := by
  unfold takeLong
  split
  · exact spares_error _
  · next s _ =>
    split
    · exact spares_take s _
    · exact spares_pending s
    · exact spares_raise s

private theorem spares_step (word : String) : Spares (·.step word) := by
  intro r r' path h hnone
  have hdivided : (r.withOutput path).divided = r.divided := rfl
  have hpending : (r.withOutput path).pending = r.pending := rfl
  dsimp only at h ⊢
  unfold step at h ⊢
  rw [hdivided, hpending]
  by_cases hword : r.divided = true
  · rw [if_pos hword] at h ⊢
    exact spares_takeInput word r r' path h hnone
  · rw [if_neg hword] at h ⊢
    generalize Word.ofText word = shape at h ⊢
    cases shape with
    | divider =>
      have hmap : (fun r : Reading => r.settled.map fun r => { r with divided := true }) =
          fun r => r.settled >>= fun r => .ok { r with divided := true } := by
        funext r
        cases r.settled <;> rfl
      have hspares : Spares fun r => r.settled.map fun r => { r with divided := true } := by
        rw [hmap]
        exact spares_settled.bind (spares_ok (fun _ => rfl) fun _ _ => rfl)
      exact hspares r r' path h hnone
    | long name value => exact spares_settled.bind (spares_takeLong name value) r r' path h hnone
    | letters cs => exact spares_settled.bind (spares_takeLetters cs) r r' path h hnone
    | plain s =>
      cases hswitch : r.pending with
      | some switch =>
        rw [hswitch] at h
        exact spares_take switch s r r' path h hnone
      | none =>
        rw [hswitch] at h
        exact spares_takeInput s r r' path h hnone

private theorem spares_steps (words : List String) : Spares fun r => words.foldlM step r := by
  induction words with
  | nil => exact spares_ok (fun _ => rfl) fun _ _ => rfl
  | cons word words ih =>
    simp only [List.foldlM_cons]
    exact (spares_step word).bind ih

private theorem finish_output {r : Reading} {a : Arguments} (h : r.finish = .ok a)
    (hnone : a.output = none) (path : String) :
    r.choices.output = none ∧
      (r.withOutput path).finish = .ok { a with output := some path } := by
  have hpending : (r.withOutput path).pending = r.pending := rfl
  have hinput : (r.withOutput path).input = r.input := rfl
  unfold finish settled at h ⊢
  rw [hpending]
  cases hswitch : r.pending with
  | some s => simp [hswitch, Bind.bind, Except.bind] at h
  | none =>
    simp only [hswitch, Bind.bind, Except.bind] at h ⊢
    rw [hinput]
    cases hword : r.input with
    | none => simp [hword] at h
    | some input =>
      simp only [hword] at h ⊢
      cases h
      exact ⟨hnone, rfl⟩

end Reading

/-- A command line without an output file may start with one. -/
theorem Arguments.parse_output {words : List String} {a : Arguments}
    (h : Arguments.parse words = .ok a) (hnone : a.output = none) (path : String) :
    Arguments.parse (("--outputFile=" ++ path) :: words) = .ok { a with output := some path } := by
  have hword : Word.ofText ("--outputFile=" ++ path) = .long "outputFile" (some path) := by
    rw [Word.ofText, String.toList_append]
    simp
  have hfirst : Reading.step {} ("--outputFile=" ++ path) =
      .ok (({} : Reading).withOutput path) := by
    rw [Reading.step, hword]
    rfl
  unfold Arguments.parse at h ⊢
  cases hread : words.foldlM Reading.step {} with
  | error stop => simp [hread, Bind.bind, Except.bind] at h
  | ok r =>
    simp only [hread, Bind.bind, Except.bind] at h
    obtain ⟨houtput, hfinish⟩ := Reading.finish_output h hnone path
    obtain ⟨-, hrest⟩ := Reading.spares_steps words {} r path hread houtput
    rw [List.foldlM_cons, hfirst]
    simp only [Bind.bind, Except.bind] at hrest ⊢
    rw [hrest]
    exact hfinish

/-! ### Runs with an output file -/

variable {w w' : Workspace} {l : Location}

/-- The paths of the outlines and embedded files that a text is made from. -/
def reads (w : Workspace) (input : String) (s : Settings) : List String :=
  match s.format with
  | .tokens => [input]
  | _ => ((Origin.file input).files w s.width.toUInt64 s.searchPaths).map ReadFile.name

private theorem render_eq (h : w.Emptied l w') {input : String} {s : Settings}
    (hinput : w.exists? input = true) (hreads : ∀ path ∈ reads w' input s, w'.locate path ≠ .ok l) :
    render w' input s = render w input s := by
  have hdocument (hfiles : ∀ path ∈ ((Origin.file input).files w' s.width.toUInt64
        s.searchPaths).map ReadFile.name, w'.locate path ≠ .ok l) :
      renderDocument w' input s = renderDocument w input s := by
    -- the equation of `renderDocument` takes long to come by
    delta renderDocument Compile.file
    rw [h.parseFile_eq fun f hf => hfiles f.name (List.mem_map_of_mem hf)]
  unfold render
  unfold reads at hreads
  generalize s.format = format at hreads ⊢
  cases format with
  | tokens =>
    cases hlocate : w.locate input with
    | error fault => simp [Workspace.exists?, Workspace.entry?, hlocate] at hinput
    | ok k =>
      have hlocate' := h.locate_of_ok hlocate
      have hk : k ≠ l := fun hkl => hreads input List.mem_cons_self (hkl ▸ hlocate')
      simp only [renderTokens, Workspace.readText, h.read_eq hlocate' hk]
  | _ => exact hdocument hreads

private theorem exists?_of_plan {a : Arguments} {s : Settings} (h : plan w a = .ok s) :
    w.exists? a.input = true := by
  unfold plan at h
  split at h
  · cases h
  · next hinput => simpa using hinput

/-- The settings do not depend on the output file. -/
theorem plan_output (w : Workspace) (a : Arguments) (output : Option String) :
    plan w { a with output } = plan w a := rfl

private theorem code_ne_zero (f : Fault) (w : Workspace) : (f.result w).code ≠ 0 := by
  cases f <;> simp [Fault.result, Fault.code]

/-- A run without an output file that succeeds prints its text and changes nothing. -/
theorem execute_eq_of_code {a : Arguments} (hnone : a.output = none)
    (h : (execute w a).code = 0) :
    ∃ settings text, plan w a = .ok settings ∧ render w a.input settings = .ok text ∧
      execute w a = { code := 0, out := text, workspace := w } := by
  unfold execute at h ⊢
  cases hplan : plan w a with
  | error fault =>
    rw [hplan] at h
    exact absurd h (code_ne_zero fault w)
  | ok settings =>
    rw [hplan, hnone] at h
    rw [hnone]
    simp only [openOutput] at h ⊢
    cases hrender : render w a.input settings with
    | error fault =>
      rw [hrender] at h
      exact absurd h (code_ne_zero fault w)
    | ok text => exact ⟨settings, text, rfl, hrender, rfl⟩

/-- A run with an output file that can make its text leaves it there and prints nothing. -/
theorem execute_eq_of_render {a : Arguments} {path text : String} {opened : Workspace}
    {settings : Settings} (houtput : a.output = some path) (hplan : plan w a = .ok settings)
    (hopened : w.create path = .ok (opened, l)) (hdevice : opened.tree.get? l ≠ some .full)
    (hrender : render opened a.input settings = .ok text) :
    execute w a = { code := 0, workspace :=
      { opened with tree := opened.tree.set l (.file (Text.Utf8.encode text)) } } := by
  rw [execute, hplan, houtput]
  simp only [openOutput, hopened, hrender, Bind.bind, Except.bind, deliver, Workspace.write,
    if_neg hdevice]

/-- `Redirected w words words' path l`: the run with the words `words'` succeeds and prints nothing;
what the run with `words` prints is in the file at `path`, and other locations than `l` are as they
were. -/
structure Redirected (w : Workspace) (words words' : List String) (path : String) (l : Location) :
    Prop where
  code : (run w words').code = 0
  out : (run w words').out = ""
  written : (run w words').workspace.read path = .ok (Text.Utf8.encode (run w words).out)
  here : (run w words').workspace.here = w.here
  others : ∀ k ≠ l, (run w words').workspace.tree.get? k = w.tree.get? k

/-- Writing to a file and writing to the output stream agree. Take a command line without an output
file that succeeds, and one that asks for the same and for an output file; there is one for every
path. Let the path open a file that is no device and, once it is open, none of those that the text
is made from. Then the output is redirected into that file. -/
theorem output_to_file {w : PlacedWorkspace} {words words' : List String} {a : Arguments}
    {path : String} {opened : Workspace}
    (hwords : Arguments.parse words = .ok a) (hnone : a.output = none)
    (hwords' : Arguments.parse words' = .ok { a with output := some path })
    (hopened : w.create path = .ok (opened, l)) (hdevice : w.tree.get? l ≠ some .full)
    (hreads : ∀ settings, plan w a = .ok settings →
      ∀ read ∈ reads opened a.input settings, opened.locate read ≠ .ok l)
    (hcode : (run w words).code = 0) :
    Arguments.parse (("--outputFile=" ++ path) :: words) = .ok { a with output := some path } ∧
      Redirected w words words' path l := by
  have hrun : run w words = execute w a := by rw [run, hwords]
  have hrun' : run w words' = execute w { a with output := some path } := by rw [run, hwords']
  rw [hrun] at hcode
  obtain ⟨settings, text, hplan, hrender, hexecute⟩ := execute_eq_of_code hnone hcode
  have hemptied := Workspace.emptied_of_create hopened hdevice
  have hrender' : render opened a.input settings = .ok text :=
    (render_eq hemptied (exists?_of_plan hplan) (hreads settings hplan)).trans hrender
  have hplan' := (plan_output w a (some path)).trans hplan
  have hexecute' := execute_eq_of_render rfl hplan' hopened (by simp [hemptied.file]) hrender'
  rw [hexecute] at hrun
  rw [hexecute'] at hrun'
  have hwritten := hemptied.sameBut_set (Text.Utf8.encode text)
  refine ⟨Arguments.parse_output hwords hnone path, ?_, ?_, ?_, ?_, fun k hk => ?_⟩
  · rw [hrun']
  · rw [hrun']
  · rw [hrun', hrun, Workspace.read, ← hwritten.locate_eq, hemptied.locate_of_create hopened]
    simp only [FileTree.get?_set hemptied.ne_nil, if_true]
  · rw [hrun']
    exact hemptied.here
  · rw [hrun', FileTree.get?_set hemptied.ne_nil, if_neg hk, hemptied.other k hk]

/-- An outline that embeds a note, and a note. -/
def notedWorkspace : PlacedWorkspace where
  tree.entries :=
    [(["main.m6r"], .file (Text.Utf8.encode "Action:\n    Embed: note.md\n")),
      (["note.md"], .file (Text.Utf8.encode "n\n"))]
  named := by simp

/-- The same with an output file that was opened. -/
def openedWorkspace : Workspace where
  tree.entries := notedWorkspace.tree.entries ++ [(["prompt.txt"], .file [])]

private theorem plan_noted : plan notedWorkspace { input := "main.m6r", noPreamble := true } =
    .ok { width := 4, searchPaths := [], format := .prompt, preamble := false } := by
  decide +kernel

private theorem execute_noted :
    (execute notedWorkspace { input := "main.m6r", noPreamble := true }).code = 0 := by
  obtain ⟨x, hx⟩ : ∃ x, x = Round.after notedWorkspace 4 40
      (Origin.start notedWorkspace 4 [] (.file "main.m6r")) := ⟨_, rfl⟩
  obtain ⟨raw, hraw⟩ : ∃ raw, x.document? = some raw :=
    Option.isSome_iff_exists.mp (by rw [hx]; decide +kernel)
  have hparse : Compile.parseFile notedWorkspace 4 [] "main.m6r" = .ok raw :=
    Origin.parse_of_ended (hx.symm.trans (Round.ended_of_document? hraw))
  simp only [execute, plan_noted, openOutput, render]
  delta renderDocument Compile.file
  dsimp only
  rw [show (4 : Nat).toUInt64 = 4 from rfl, hparse]
  rfl

private theorem reads_opened : reads openedWorkspace "main.m6r"
    { width := 4, searchPaths := [], format := .prompt, preamble := false } =
      ["main.m6r", "note.md"] := by
  have hload : Sources.load {} openedWorkspace "main.m6r" =
      ({ used := [["main.m6r"]] },
        .ok ⟨"main.m6r", ["main.m6r"], "Action:\n    Embed: note.md\n"⟩) := by decide +kernel
  have hfiles : Stream.openingsWithin? openedWorkspace 4 40
      { sources := { used := [["main.m6r"]] },
        opened := [Outline.tokens 4 "main.m6r" "Action:\n    Embed: note.md\n"] } =
      some [.embedded "note.md" "n\n"] := by decide +kernel
  simp only [reads, Origin.files, hload]
  rw [show (4 : Nat).toUInt64 = 4 from rfl, Stream.openings_of_within hfiles]
  rfl

/-- The outline with its note is written to the file as it is printed. -/
theorem output_to_file_noted :
    (run notedWorkspace ["main.m6r", "--no-preamble"]).code = 0 ∧
      Redirected notedWorkspace ["main.m6r", "--no-preamble"]
        ["main.m6r", "--no-preamble", "-o", "prompt.txt"] "prompt.txt" ["prompt.txt"] := by
  have hwords : Arguments.parse ["main.m6r", "--no-preamble"] =
      .ok { input := "main.m6r", noPreamble := true } := by decide +kernel
  have hwords' : Arguments.parse ["main.m6r", "--no-preamble", "-o", "prompt.txt"] =
      .ok { input := "main.m6r", noPreamble := true, output := some "prompt.txt" } := by
    decide +kernel
  have hopened : notedWorkspace.create "prompt.txt" = .ok (openedWorkspace, ["prompt.txt"]) := by
    decide +kernel
  have hcode : (run notedWorkspace ["main.m6r", "--no-preamble"]).code = 0 := by
    rw [run, hwords]
    exact execute_noted
  refine ⟨hcode, (output_to_file hwords rfl hwords' hopened (by decide)
    (fun settings hsettings => ?_) hcode).2⟩
  rw [plan_noted] at hsettings
  cases hsettings
  rw [reads_opened]
  decide +kernel

/-- An outline, and a device that takes no bytes. -/
def deviceWorkspace : PlacedWorkspace where
  tree.entries :=
    [(["main.m6r"], .file (Text.Utf8.encode "Role:\n")), (["dev"], .directory),
      (["dev", "full"], .full)]
  named := by simp

/-- An output file that is the input is empty when it is read, so that its tokens are not those of
the outline. A device that takes no bytes can be opened, and then the run fails. -/
theorem output_to_input_or_device :
    (¬ ∀ (w : PlacedWorkspace) (opened : Workspace) (words words' : List String) (a : Arguments)
        (path : String) (l : Location), Arguments.parse words = .ok a → a.output = none →
      Arguments.parse words' = .ok { a with output := some path } →
      w.create path = .ok (opened, l) → (run w words).code = 0 →
        Redirected w words words' path l) ∧
      deviceWorkspace.create "/dev/full" = .ok (deviceWorkspace, ["dev", "full"]) ∧
      (run deviceWorkspace ["main.m6r", "-f", "tokens", "-o", "/dev/full"]).code = 1 := by
  refine ⟨fun h => ?_, by decide +kernel, by decide +kernel⟩
  have hopened : deviceWorkspace.create "main.m6r" = .ok
      ({ tree.entries :=
          [(["main.m6r"], .file []), (["dev"], .directory), (["dev", "full"], .full)] },
        ["main.m6r"]) := by decide +kernel
  have hwritten := (h _ _ ["main.m6r", "-f", "tokens"]
    ["main.m6r", "-f", "tokens", "-o", "main.m6r"]
    { input := "main.m6r", format := some .tokens } _ _ (by decide +kernel) rfl
    (by decide +kernel) hopened (by decide +kernel)).written
  revert hwritten
  decide +kernel

end Command

end PromptOutline
