import PromptOutline.Proofs.Layout
import PromptOutline.Document.Builder

/-!
# What taking a token can do

The builder looks at the innermost open block and at the kind of the token. `Taken` lists everything
that can come of it, each case with what it depends on. A token is reported in three of the cases:
when it repeats a section, when it stands in place of an indent, and when no rule takes it.
-/

namespace PromptOutline.Builder

/-- `Taken b t b'`: taking the token `t` may lead from `b` to `b'`. -/
inductive Taken (b : Builder) (t : Token) : Builder → Prop where
  /-- The first block of its kind at the top. -/
  | opened {s : Section} (hframes : b.frames = []) (hs : s.kind = t.kind)
      (hfree : b.document.root? s = none) : Taken b t (b.openSection t)
  /-- A further block of a kind at the top. It is read, but it is no section. -/
  | repeated {s : Section} {id : NodeId} (message : String) (hframes : b.frames = [])
      (hs : s.kind = t.kind) (hroot : b.document.root? s = some id) :
      Taken b t ((b.report t message).openSection t)
  | ended (hframes : b.frames = []) (hkind : t.kind = .endOfFile) : Taken b t b
  | named {f : Frame} {outer : List Frame} (hframes : b.frames = f :: outer)
      (hphase : f.phase = .keyword) (hkind : t.kind = .keywordText) :
      Taken b t ((b.addBelow f t).enter f outer .name)
  | begun {f : Frame} {outer : List Frame} (hframes : b.frames = f :: outer)
      (hphase : f.phase = .keyword ∨ f.phase = .name) (hkind : t.kind = .indent) :
      Taken b t (b.enter f outer (.body false))
  | text {f : Frame} {outer : List Frame} (hframes : b.frames = f :: outer)
      (hphase : f.phase = .body false) (hkind : t.kind = .text) : Taken b t (b.addBelow f t)
  | nested {f : Frame} {outer : List Frame} {seen : Bool} (hframes : b.frames = f :: outer)
      (hphase : f.phase = .body seen) (hkind : t.kind = .context) (houter : f.kind = .context) :
      Taken b t (b.openNested f outer t)
  | closed {f : Frame} {outer : List Frame} {seen : Bool} (hframes : b.frames = f :: outer)
      (hphase : f.phase = .body seen) (hkind : closes t.kind = true) :
      Taken b t { b with frames := outer }
  /-- A token in place of an indent closes the block, or the body starts behind it. -/
  | missed {f : Frame} {outer : List Frame} (message : String) (hframes : b.frames = f :: outer)
      (hphase : f.phase = .keyword ∨ f.phase = .name) :
      Taken b t (b.missIndent f outer t message)
  | reported (message : String) : Taken b t (b.report t message)

private theorem taken_takeTop {b : Builder} (hframes : b.frames = []) (t : Token) :
    Taken b t (b.takeTop t) := by
  unfold takeTop
  split
  · next s hs =>
    have hkind := Section.kind_of_ofKind? hs
    cases hroot : b.document.root? s with
    | none =>
      simp only [Option.isSome_none, Bool.false_eq_true, if_false]
      exact .opened hframes hkind hroot
    | some id =>
      simp only [Option.isSome_some, if_true]
      exact .repeated _ hframes hkind hroot
  · split
    · next hkind => exact .ended hframes hkind
    · exact .reported _

private theorem taken_takeBody {b : Builder} {f : Frame} {outer : List Frame} {seen : Bool}
    (hframes : b.frames = f :: outer) (hphase : f.phase = .body seen) (t : Token) :
    Taken b t (b.takeBody f outer seen t) := by
  unfold takeBody
  split
  · next hkind =>
    cases seen with
    | true => exact .reported _
    | false => exact .text hframes hphase hkind
  · split
    · next hkinds => exact .nested hframes hphase hkinds.1 hkinds.2
    · split
      · next hkind => exact .closed hframes hphase hkind
      · exact .reported _

/-- A builder takes a token in one of the ways in which tokens are taken. -/
theorem taken_take (b : Builder) (t : Token) : Taken b t (b.take t) := by
  unfold take
  split
  · next hframes => exact taken_takeTop hframes t
  · next f outer hframes =>
    split
    · next hphase =>
      split
      · next hkind => exact .named hframes hphase hkind
      · split
        · next hkind => exact .begun hframes (.inl hphase) hkind
        · exact .missed _ hframes (.inl hphase)
    · next hphase =>
      split
      · next hkind => exact .begun hframes (.inr hphase) hkind
      · exact .missed _ hframes (.inr hphase)
    · next seen hphase => exact taken_takeBody hframes hphase t

end PromptOutline.Builder
