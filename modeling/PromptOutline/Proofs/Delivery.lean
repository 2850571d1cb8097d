import PromptOutline.Stream

/-!
# What the stream delivers

Directives and the marks for the ends of files stay inside the stream. It gives every other token,
and it ends with the mark of the file that ended last.
-/

namespace PromptOutline.Stream

/-- Tokens that the stream keeps to itself. -/
def isInner (k : TokenKind) : Bool := k.isDirective || k == .endOfFile

private theorem no_token_of_includeFile {w : Workspace} {width : UInt64} {s s' : Stream}
    {name : Token} {rest : List Token} {outer : List (List Token)} {es : List Event}
    (h : includeFile w width s name rest outer = .next es s') :
    (∀ t, .token t ∉ es) ∧ s'.ending = s.ending := by
  unfold includeFile at h
  split at h
  · cases h
  · cases h
    simp

private theorem no_token_of_embedFiles {w : Workspace} {s s' : Stream} {pattern : Token}
    {rest : List Token} {outer : List (List Token)} {es : List Event}
    (h : embedFiles w s pattern rest outer = .next es s') :
    (∀ t, .token t ∉ es) ∧ s'.ending = s.ending := by
  unfold embedFiles at h
  split at h
  · split at h
    · cases h
    · cases h
      simp
  · cases h
    simp
  · split at h
    · cases h
    · cases h
      simp

/-- What one step gives, and which mark it leaves. -/
theorem kinds_of_step {w : Workspace} {width : UInt64} {s s' : Stream} {es : List Event}
    (h : s.step w width = .next es s') :
    (∀ t, .token t ∈ es → isInner t.kind = false) ∧
      (s'.ending = s.ending ∨ s'.ending.kind = .endOfFile) := by
  have hnone {es : List Event} {s' : Stream}
      (hs : (∀ t, .token t ∉ es) ∧ s'.ending = s.ending) :
      (∀ t, .token t ∈ es → isInner t.kind = false) ∧
        (s'.ending = s.ending ∨ s'.ending.kind = .endOfFile) :=
    ⟨fun t ht => absurd ht (hs.1 t), .inl hs.2⟩
  unfold step at h
  split at h
  · cases h
  · cases h
    exact hnone ⟨by simp, rfl⟩
  · split at h
    · next hk =>
      cases h
      exact ⟨by simp, .inr hk⟩
    · split at h
      · split at h
        · exact hnone (no_token_of_includeFile h)
        · cases h
          exact hnone ⟨by simp, rfl⟩
      · cases h
        exact hnone ⟨by simp, rfl⟩
    · split at h
      · split at h
        · exact hnone (no_token_of_embedFiles h)
        · cases h
          exact hnone ⟨by simp, rfl⟩
      · cases h
        exact hnone ⟨by simp, rfl⟩
    · next heof hinclude hembed =>
      cases h
      refine ⟨?_, .inl rfl⟩
      intro u hu
      simp only [List.mem_singleton, Event.token.injEq] at hu
      subst hu
      cases hk : u.kind with
      | endOfFile => exact (heof hk).elim
      | includeFile => exact (hinclude hk).elim
      | embedFiles => exact (hembed hk).elim
      | _ => rfl

/-- A run goes on from the stream that a step leaves. -/
theorem run_of_next {w : Workspace} {width : UInt64} {s s' : Stream} {es : List Event}
    (h : s.step w width = .next es s') :
    s.run w width = (es ++ (s'.run w width).1, (s'.run w width).2) := by
  rw [run]
  split
  · next hs => rw [h] at hs; cases hs
  · next hs => rw [h] at hs; cases hs
  · next es' t hs =>
    rw [h] at hs
    cases hs
    rfl

/-- A run whose first step ends the input has no events. -/
theorem run_of_finished {w : Workspace} {width : UInt64} {s : Stream}
    (h : s.step w width = .finished) : s.run w width = ([], .finished s.ending) := by
  rw [run]
  split
  · rfl
  · next hs => rw [h] at hs; cases hs
  · next hs => rw [h] at hs; cases hs

/-- A run whose first step fails has no events. -/
theorem run_of_failed {w : Workspace} {width : UInt64} {s : Stream} {d : Diagnostic}
    (h : s.step w width = .failed d) : s.run w width = ([], .failed d) := by
  rw [run]
  split
  · next hs => rw [h] at hs; cases hs
  · next hs => rw [h] at hs; cases hs; rfl
  · next hs => rw [h] at hs; cases hs

/-- Everything that a stream gives, if it ends within some steps. -/
def runWithin? (w : Workspace) (width : UInt64) : Nat → Stream → Option (List Event × Outcome)
  | 0, _ => none
  | steps + 1, s =>
    match s.step w width with
    | .finished => some ([], .finished s.ending)
    | .failed d => some ([], .failed d)
    | .next events s' => (runWithin? w width steps s').map fun r => (events ++ r.1, r.2)

/-- A run that is over within some steps is what those steps give. -/
theorem run_of_within {w : Workspace} {width : UInt64} {steps : Nat} {s : Stream}
    {r : List Event × Outcome} (h : runWithin? w width steps s = some r) : s.run w width = r := by
  induction steps generalizing s r with
  | zero => cases h
  | succ steps ih =>
    unfold runWithin? at h
    split at h
    · next hstep => rw [run_of_finished hstep, Option.some.inj h]
    · next hstep => rw [run_of_failed hstep, Option.some.inj h]
    · next hstep =>
      obtain ⟨r', hr', rfl⟩ := Option.map_eq_some_iff.mp h
      rw [run_of_next hstep, ih hr']

/-- Induction along a run: from the stream that a step leaves to the stream before it. -/
theorem run_induction (w : Workspace) (width : UInt64) {P : Stream → Prop}
    (finished : ∀ s, s.step w width = .finished → P s)
    (failed : ∀ s d, s.step w width = .failed d → P s)
    (next : ∀ s es s', s.step w width = .next es s' → P s' → P s) (s : Stream) : P s := by
  cases h : s.step w width with
  | finished => exact finished s h
  | failed d => exact failed s d h
  | next es s' => exact next s es s' h (run_induction w width finished failed next s')
  termination_by (s.unused w, s.directives, s.waiting)
  decreasing_by exact below_of_step h

/-- No directive and no mark for the end of a file leaves the stream. -/
theorem kind_of_mem_run {w : Workspace} {width : UInt64} (s : Stream) :
    ∀ t, .token t ∈ (s.run w width).1 → isInner t.kind = false := by
  induction s using run_induction w width with
  | finished s h => simp [run_of_finished h]
  | failed s d h => simp [run_of_failed h]
  | next s es s' h ih =>
    intro t ht
    rw [run_of_next h] at ht
    rcases List.mem_append.mp ht with ht | ht
    · exact (kinds_of_step h).1 t ht
    · exact ih t ht

/-- A run that finishes does so with the mark for the end of a file. -/
theorem kind_of_ending {w : Workspace} {width : UInt64} (s : Stream)
    (hs : s.ending.kind = .endOfFile) {ending : Token}
    (h : (s.run w width).2 = .finished ending) : ending.kind = .endOfFile := by
  induction s using run_induction w width with
  | finished s hstep =>
    rw [run_of_finished hstep] at h
    cases h
    exact hs
  | failed s d hstep =>
    rw [run_of_failed hstep] at h
    cases h
  | next s es s' hstep ih =>
    rw [run_of_next hstep] at h
    apply ih _ h
    rcases (kinds_of_step hstep).2 with he | he
    · rw [he, hs]
    · exact he

end PromptOutline.Stream
