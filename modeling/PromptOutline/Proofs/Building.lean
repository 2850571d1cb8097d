import PromptOutline.Compile
import PromptOutline.Proofs.Delivery
import PromptOutline.Proofs.Grammar
import PromptOutline.Proofs.Layout

/-!
# The builder accepts the grammar

The builder takes tokens one by one and passes over those that no rule takes. Two runs are compared
with derivations here. Along a derivation no token is reported and every block is added below the
block around it, so the document is that of the derived trees. Conversely, tokens that a run takes
without a report, and that leave no block open, split into the parts of blocks.

The end of the input closes blocks as outdents would: the first part of this module carries a run
that ends early to one that ends with outdents.
-/

namespace PromptOutline.Builder

open Grammar

/-! ### What a token never undoes -/

/-- A report is added behind the others. -/
@[simp] theorem problems_report (b : Builder) (t : Token) (message : String) :
    (b.report t message).problems = b.problems ++ [.ofToken message t] := rfl

/-- A missing indentation is reported at its token. -/
@[simp] theorem problems_missIndent (b : Builder) (f : Frame) (outer : List Frame) (t : Token)
    (message : String) :
    (b.missIndent f outer t message).problems = b.problems ++ [.ofToken message t] := by
  unfold missIndent
  split <;> rfl

private theorem prefix_report (b : Builder) (t : Token) (message : String) :
    b.problems <+: (b.report t message).problems :=
  ⟨_, rfl⟩

private theorem prefix_missIndent (b : Builder) (f : Frame) (outer : List Frame) (t : Token)
    (message : String) : b.problems <+: (b.missIndent f outer t message).problems := by
  rw [problems_missIndent]
  exact List.prefix_append _ _

private theorem prefix_takeTop (b : Builder) (t : Token) :
    b.problems <+: (b.takeTop t).problems := by
  unfold takeTop
  split
  · split
    · exact prefix_report b t _
    · exact List.prefix_rfl
  · split
    · exact List.prefix_rfl
    · exact prefix_report b t _

private theorem prefix_takeBody (b : Builder) (f : Frame) (outer : List Frame) (nested : Bool)
    (t : Token) : b.problems <+: (b.takeBody f outer nested t).problems := by
  unfold takeBody
  split
  · split
    · exact prefix_report b t _
    · exact List.prefix_rfl
  · split
    · exact List.prefix_rfl
    · split
      · exact List.prefix_rfl
      · exact prefix_report b t _

/-- A problem that was noted stays. -/
theorem problems_take (b : Builder) (t : Token) : b.problems <+: (b.take t).problems := by
  unfold take
  split
  · exact prefix_takeTop b t
  · next f outer _ =>
    split
    · split
      · exact List.prefix_rfl
      · split
        · exact List.prefix_rfl
        · exact prefix_missIndent b f outer t _
    · split
      · exact List.prefix_rfl
      · exact prefix_missIndent b f outer t _
    · exact prefix_takeBody b f outer _ t

private theorem problems_foldl_take (ts : List Token) (b : Builder) :
    b.problems <+: (ts.foldl take b).problems := by
  induction ts generalizing b with
  | nil => exact List.prefix_rfl
  | cons t ts ih => exact (problems_take b t).trans (ih (b.take t))

/-! ### Runs along a derivation -/

private theorem addBelow_eq {b : Builder} {id : NodeId} (k : TokenKind) (phase : Phase) (t : Token)
    (h : id < b.document.size) :
    b.addBelow ⟨id, k, phase⟩ t = { b with document := b.document.adopt id [leaf t] } := by
  have hdoc := Document.append_add (.ofToken t) h
  simp only [addBelow, Document.add] at hdoc ⊢
  rw [← Document.size, hdoc]
  rfl

private theorem openNested_eq {b : Builder} {id : NodeId} (k : TokenKind) (phase : Phase)
    (outer : List Frame) (t : Token) (h : id < b.document.size) :
    b.openNested ⟨id, k, phase⟩ outer t =
      { b with
        document := b.document.adopt id [leaf t],
        frames := ⟨b.document.size, t.kind, .keyword⟩ :: ⟨id, k, .body true⟩ :: outer } := by
  have hdoc := Document.append_add (.ofToken t) h
  simp only [openNested, Document.add] at hdoc ⊢
  rw [← Document.size, hdoc]
  rfl

/-- The name and the indent of a block. -/
theorem foldl_take_head {b : Builder} {id : NodeId} {k : TokenKind} {outer : List Frame}
    {name? : Option Token} {indent : Token} (hf : b.frames = ⟨id, k, .keyword⟩ :: outer)
    (hid : id < b.document.size) (hname : ∀ t ∈ name?, t.kind = .keywordText)
    (hindent : indent.kind = .indent) :
    (name?.toList ++ [indent]).foldl take b =
      { b with
        document := b.document.adopt id (name?.toList.map leaf),
        frames := ⟨id, k, .body false⟩ :: outer } := by
  cases name? with
  | none => simp [take, hf, hindent, enter, Document.adopt_nil]
  | some name =>
    have hn : name.kind = .keywordText := hname name rfl
    have htake : b.take name = { b with
        document := b.document.adopt id [leaf name], frames := ⟨id, k, .name⟩ :: outer } := by
      simp only [take, hf, hn, if_true]
      rw [addBelow_eq k .keyword name hid]
      rfl
    simp only [Option.toList_some, List.singleton_append, List.foldl_cons, List.foldl_nil, htake,
      List.map_cons, List.map_nil]
    simp [take, hindent, enter]

/-- The texts of a block. -/
theorem foldl_take_texts {b : Builder} {id : NodeId} {k : TokenKind} {outer : List Frame}
    {texts : List Token} (hf : b.frames = ⟨id, k, .body false⟩ :: outer)
    (hid : id < b.document.size) (htexts : ∀ t ∈ texts, t.kind = .text) :
    texts.foldl take b = { b with document := b.document.adopt id (texts.map leaf) } := by
  induction texts generalizing b with
  | nil => simp [Document.adopt_nil]
  | cons t texts ih =>
    have ht : t.kind = .text := htexts t (by simp)
    have htake : b.take t = { b with document := b.document.adopt id [leaf t] } := by
      rw [← addBelow_eq k (.body false) t hid]
      simp [take, hf, takeBody, ht]
    have hrest := ih (b := b.take t) (by rw [htake]; exact hf)
      (by rw [htake]; exact Document.lt_size_adopt hid id _) (fun u hu => htexts u (by simp [hu]))
    have happ := Document.adopt_append [leaf t] (texts.map leaf) hid
    rw [List.singleton_append] at happ
    rw [List.foldl_cons, hrest, htake, List.map_cons, happ]

/-- A run over tokens in the body of a block of kind `k` that adds trees below it. -/
def Adopts (k : TokenKind) (ts : List Token) (forest : List Tree) : Prop :=
  ∀ (b : Builder) (id : NodeId) (nested : Bool) (outer : List Frame),
    b.frames = ⟨id, k, .body nested⟩ :: outer → id < b.document.size →
    ts.foldl take b = { b with
      document := b.document.adopt id forest,
      frames := ⟨id, k, .body (nested || !forest.isEmpty)⟩ :: outer }

/-- A block behind its keyword, given the run over the blocks nested in it. -/
theorem foldl_take_inside {b : Builder} {id : NodeId} {k : TokenKind} {outer : List Frame}
    {name? : Option Token} {indent outdent : Token} {texts inner : List Token} {nested : List Tree}
    (hf : b.frames = ⟨id, k, .keyword⟩ :: outer) (hid : id < b.document.size)
    (hname : ∀ t ∈ name?, t.kind = .keywordText) (hindent : indent.kind = .indent)
    (htexts : ∀ t ∈ texts, t.kind = .text) (hinner : Adopts k inner nested)
    (houtdent : outdent.kind = .outdent) :
    (name?.toList ++ indent :: (texts ++ (inner ++ [outdent]))).foldl take b =
      { b with
        document := b.document.adopt id (name?.toList.map leaf ++ (texts.map leaf ++ nested)),
        frames := outer } := by
  have hsplit : name?.toList ++ indent :: (texts ++ (inner ++ [outdent])) =
      (name?.toList ++ [indent]) ++ (texts ++ (inner ++ [outdent])) := by simp
  have hlt (ts : List Tree) : id < (b.document.adopt id ts).size := Document.lt_size_adopt hid id ts
  rw [hsplit, List.foldl_append, foldl_take_head hf hid hname hindent, List.foldl_append,
    foldl_take_texts rfl (hlt _) htexts, List.foldl_append,
    ← Document.adopt_append _ _ hid, hinner _ id false outer rfl (hlt _),
    ← Document.adopt_append _ _ hid, List.append_assoc]
  simp [take, takeBody, houtdent, closes]

/-- A context in the body of a context opens a block. -/
theorem take_nested {b : Builder} {id : NodeId} {seen : Bool} {outer : List Frame} {t : Token}
    (hf : b.frames = ⟨id, .context, .body seen⟩ :: outer) (hid : id < b.document.size)
    (ht : t.kind = .context) :
    b.take t = { b with
      document := b.document.adopt id [leaf t],
      frames := ⟨b.document.size, .context, .keyword⟩ :: ⟨id, .context, .body true⟩ :: outer } := by
  simp only [take, hf, takeBody, ht, reduceCtorEq, if_false, and_self, if_true]
  rw [openNested_eq _ _ _ _ hid, ht]

/-- Nested blocks are added below the block they stand in. -/
theorem adopts_of_blocks {kinds : List TokenKind} {ts : List Token} {forest : List Tree}
    (h : Blocks kinds ts forest) {k : TokenKind} (hk : kinds = nestedKinds k) :
    Adopts k ts forest := by
  induction h generalizing k with
  | nil =>
    intro b id nested outer hf _
    simp [Document.adopt_nil, ← hf]
  | @cons kinds keyword indent outdent name? texts inner rest nested others
      hkeyword hname hindent htexts hinner houtdent hrest ihinner ihrest =>
    intro b id seen outer hf hid
    subst hk
    obtain ⟨hcontext, rfl⟩ := mem_nestedKinds_iff.mp hkeyword
    rw [blockTokens, List.cons_append, List.foldl_cons, take_nested hf hid hcontext,
      List.foldl_append, foldl_take_inside rfl (Document.size_lt_size_adopt _ _ _) hname hindent
        htexts (ihinner (by rw [hcontext])) houtdent, leaf, Document.adopt_adopt]
    rw [ihrest rfl _ id true outer rfl (Document.lt_size_adopt hid id _),
      ← Document.adopt_append _ _ hid]
    simp [blockTree]

/-- A keyword at the top opens the section of its kind. -/
theorem take_section {b : Builder} {s : Section} {t : Token} (hf : b.frames = [])
    (hs : s.kind = t.kind) (hfree : b.document.root? s = none) :
    b.take t = { b with
      document := ((b.document.plant [leaf t]).setRoot t.kind b.document.size).1,
      frames := [⟨b.document.size, t.kind, .keyword⟩] } := by
  have htop : b.take t = b.openSection t := by
    simp [take, hf, takeTop, ← hs, Section.ofKind?_kind, hfree]
  rw [htop, leaf, ← Document.add_eq_plant]
  rfl

private theorem size_lt_section (d : Document) (t : Token) :
    d.size < ((d.plant [leaf t]).setRoot t.kind d.size).1.size := by
  rw [Document.size_setRoot, Document.size_plant]
  simp [leaf, Tree.countAll, Tree.count]

/-- A block at the top becomes the section of its kind. -/
theorem foldl_take_block {b : Builder} {s : Section} {keyword indent outdent : Token}
    {name? : Option Token} {texts inner : List Token} {nested : List Tree} (hf : b.frames = [])
    (hs : s.kind = keyword.kind) (hfree : b.document.root? s = none)
    (hname : ∀ t ∈ name?, t.kind = .keywordText) (hindent : indent.kind = .indent)
    (htexts : ∀ t ∈ texts, t.kind = .text)
    (hinner : Blocks (nestedKinds keyword.kind) inner nested)
    (houtdent : outdent.kind = .outdent) :
    (blockTokens keyword name? indent texts inner outdent).foldl take b =
      { b with
        document := ((b.document.plant [blockTree keyword name? texts nested]).setRoot keyword.kind
          b.document.size).1 } := by
  rw [blockTokens, List.foldl_cons, take_section hf hs hfree,
    foldl_take_inside rfl (size_lt_section _ _) hname hindent htexts (adopts_of_blocks hinner rfl)
      houtdent, Document.adopt_setRoot, leaf, Document.adopt_plant, hf]
  rfl

/-- A run over the blocks of a document, behind the blocks `done`. -/
theorem foldl_take_blocks {kinds : List TokenKind} {ts : List Token} {forest : List Tree}
    (h : Blocks kinds ts forest) (hk : kinds = topKinds) {b : Builder} {done : List Tree}
    (hf : b.frames = []) (hd : b.document = .ofForest done)
    (hn : ((done ++ forest).map (·.content.kind)).Nodup) :
    ts.foldl take b = { b with document := .ofForest (done ++ forest) } := by
  induction h generalizing b done with
  | nil => simp [← hd]
  | @cons kinds keyword indent outdent name? texts inner rest nested others
      hkeyword hname hindent htexts hinner houtdent hrest _ ihrest =>
    subst hk
    have hblock : keyword.kind.isBlock = true := (mem_topKinds_iff _).mp hkeyword
    have hnew : keyword.kind ∉ done.map (·.content.kind) := by
      rw [List.map_append, List.nodup_append] at hn
      intro hm
      exact hn.2.2 _ hm _ (by simp) rfl
    obtain ⟨s, hs⟩ := Document.exists_section_kind hblock
    have hfree : b.document.root? s = none := by
      rw [hd, Document.root?_ofForest, hs]
      exact (Document.placeOf?_eq_none_iff _ 0 done).mpr hnew
    have hrun := foldl_take_block hf hs hfree hname hindent htexts hinner houtdent
    have hdoc := Document.ofForest_concat (t := blockTree keyword name? texts nested) hblock hnew
    rw [kind_blockTree] at hdoc
    rw [List.foldl_append, hrun, hd, ← hdoc]
    have hassoc : done ++ blockTree keyword name? texts nested :: others =
        (done ++ [blockTree keyword name? texts nested]) ++ others := by simp
    rw [hassoc] at hn ⊢
    exact ihrest rfl hf rfl hn

/-! ### The end of the input -/

/-- The tokens that close a block add nothing to the document. -/
theorem document_take_of_closes {t : Token} (h : closes t.kind = true) (b : Builder) :
    (b.take t).document = b.document := by
  have hk : t.kind = .outdent ∨ t.kind = .endOfFile := by simpa [closes] using h
  have hmiss (f : Frame) (outer : List Frame) (message : String) :
      (b.missIndent f outer t message).document = b.document := by
    rw [missIndent, if_pos h]
    rfl
  unfold take
  split
  · rcases hk with hk | hk <;> simp [takeTop, hk, Section.ofKind?, report, note]
  · split
    · rcases hk with hk | hk <;> simp [hk, hmiss]
    · rcases hk with hk | hk <;> simp [hk, hmiss]
    · rcases hk with hk | hk <;> simp [takeBody, hk, closes]

/-- Where an outdent is taken without a report, so is the end of the input. -/
theorem problems_take_ending {b : Builder} {outdent ending : Token}
    (ho : outdent.kind = .outdent) (he : ending.kind = .endOfFile)
    (h : (b.take outdent).problems = []) : (b.take ending).problems = [] := by
  unfold take at h ⊢
  split at h
  · simp [takeTop, ho, Section.ofKind?, problems_report] at h
  · next f outer _ =>
    split at h
    · simp [ho, missIndent, closes, problems_report] at h
    · simp [ho, missIndent, closes, problems_report] at h
    · simpa [takeBody, ho, he, closes] using h

/-- Outside all blocks, the end of the input is no problem. -/
theorem problems_take_ending_top {b : Builder} {ending : Token} (he : ending.kind = .endOfFile)
    (hf : b.frames = []) : (b.take ending).problems = b.problems := by
  simp [take, hf, takeTop, he, Section.ofKind?]

private theorem foldl_event_tokens (ts : List Token) (b : Builder) :
    (ts.map Event.token).foldl event b = ts.foldl take b := by
  rw [List.foldl_map]
  rfl

/-- A derivation is built without a problem, and the document is that of its trees. -/
theorem build_of_isDocument {ts closing : List Token} {forest : List Tree} {ending : Token}
    (hclosing : ∀ t ∈ closing, t.kind = .outdent) (hdoc : IsDocument (ts ++ closing) forest)
    (he : ending.kind = .endOfFile) :
    build (ts.map .token) (.finished ending) = .ok (.ofForest forest) := by
  have hrun : (ts ++ closing).foldl take {} = { document := .ofForest forest } :=
    @foldl_take_blocks _ _ _ hdoc.blocks rfl {} [] rfl rfl hdoc.distinct
  rw [List.foldl_append] at hrun
  have hkeep (us : List Token) (hus : ∀ t ∈ us, t.kind = .outdent) (b : Builder) :
      (us.foldl take b).document = b.document := by
    induction us generalizing b with
    | nil => rfl
    | cons u us ih =>
      rw [List.foldl_cons, ih (fun t ht => hus t (by simp [ht])),
        document_take_of_closes (by simp [closes, hus u])]
  have hd : (ts.foldl take {}).document = .ofForest forest := by
    rw [← hkeep closing hclosing, hrun]
  have hp : ((ts.foldl take {}).take ending).problems = [] := by
    cases closing with
    | nil =>
      rw [List.foldl_nil] at hrun
      rw [hrun, problems_take_ending_top he rfl]
    | cons t closing =>
      apply problems_take_ending (hclosing t (by simp)) he
      have hpre := problems_foldl_take closing ((ts.foldl take {}).take t)
      rw [← List.foldl_cons, hrun] at hpre
      exact List.prefix_nil.mp hpre
  simp only [build, foldl_event_tokens, close, result, hp, List.isEmpty_nil, if_true]
  rw [document_take_of_closes (by simp [closes, he]), hd]

/-! ### Derivations of clean runs -/

/-- A run over tokens that reports nothing and leaves no block open. -/
def Clean (b : Builder) (ts : List Token) : Prop :=
  (ts.foldl take b).problems = [] ∧ (ts.foldl take b).frames = []

private theorem clean_append {b : Builder} {ts us : List Token} :
    Clean b (ts ++ us) ↔ Clean (ts.foldl take b) us := by
  rw [Clean, List.foldl_append, Clean]

private theorem Clean.problems_take {b : Builder} {t : Token} {ts : List Token}
    (h : Clean b (t :: ts)) : (b.take t).problems = [] := by
  have hpre := problems_foldl_take ts (b.take t)
  rw [← List.foldl_cons, h.1] at hpre
  exact List.prefix_nil.mp hpre

private theorem Clean.ne_nil {b : Builder} {f : Frame} {outer : List Frame} {ts : List Token}
    (h : Clean b ts) (hf : b.frames = f :: outer) : ts ≠ [] := by
  rintro rfl
  have hframes := h.2
  rw [List.foldl_nil, hf] at hframes
  cases hframes

/-- Behind a keyword stand an optional name and an indent. -/
theorem Clean.head_parts {b : Builder} {id : NodeId} {k : TokenKind} {outer : List Frame}
    {ts : List Token} (h : Clean b ts) (hf : b.frames = ⟨id, k, .keyword⟩ :: outer) :
    ∃ (name? : Option Token) (indent : Token) (rest : List Token),
      ts = name?.toList ++ indent :: rest ∧ (∀ t ∈ name?, t.kind = .keywordText) ∧
        indent.kind = .indent := by
  obtain ⟨t, rest, rfl⟩ := List.exists_cons_of_ne_nil (h.ne_nil hf)
  have hp := h.problems_take
  by_cases hname : t.kind = .keywordText
  · have hnext : Clean (b.take t) rest := h
    have hf' : (b.take t).frames = ⟨id, k, .name⟩ :: outer := by
      simp [take, hf, hname, enter]
    obtain ⟨u, rest, rfl⟩ := List.exists_cons_of_ne_nil (hnext.ne_nil hf')
    have hpnext := hnext.problems_take
    by_cases hindent : u.kind = .indent
    · exact ⟨some t, u, rest, rfl, by simpa using hname, hindent⟩
    · rw [take, hf'] at hpnext
      simp [hindent] at hpnext
  · by_cases hindent : t.kind = .indent
    · exact ⟨none, t, rest, rfl, by simp, hindent⟩
    · simp [take, hf, hname, hindent] at hp

/-- The rest of every body of at most `n` tokens is texts, nested blocks and an outdent. -/
def BodyParts (n : Nat) : Prop :=
  ∀ (b : Builder) (id : NodeId) (k : TokenKind) (seen : Bool) (outer : List Frame)
    (ts : List Token), ts.length ≤ n → Clean b ts → (∀ t ∈ ts, t.kind ≠ .endOfFile) →
    b.frames = ⟨id, k, .body seen⟩ :: outer → id < b.document.size →
    ∃ (texts inner : List Token) (nested : List Tree) (outdent : Token) (rest : List Token),
      ts = texts ++ (inner ++ outdent :: rest) ∧ (∀ t ∈ texts, t.kind = .text) ∧
        (seen = true → texts = []) ∧ Blocks (nestedKinds k) inner nested ∧
        outdent.kind = .outdent

/-- The parts of a block behind its keyword, and the run that goes on behind the block. -/
theorem BodyParts.inside {n : Nat} (hbody : BodyParts n) {b : Builder} {id : NodeId}
    {k : TokenKind} {outer : List Frame} {ts : List Token} (hn : ts.length ≤ n) (h : Clean b ts)
    (heof : ∀ t ∈ ts, t.kind ≠ .endOfFile) (hf : b.frames = ⟨id, k, .keyword⟩ :: outer)
    (hid : id < b.document.size) :
    ∃ (name? : Option Token) (indent : Token) (texts inner : List Token) (nested : List Tree)
      (outdent : Token) (rest : List Token),
      ts = (name?.toList ++ indent :: (texts ++ (inner ++ [outdent]))) ++ rest ∧
        (∀ t ∈ name?, t.kind = .keywordText) ∧ indent.kind = .indent ∧
        (∀ t ∈ texts, t.kind = .text) ∧ Blocks (nestedKinds k) inner nested ∧
        outdent.kind = .outdent ∧
        Clean { b with
          document := b.document.adopt id (name?.toList.map leaf ++ (texts.map leaf ++ nested)),
          frames := outer } rest := by
  obtain ⟨name?, indent, behind, rfl, hname, hindent⟩ := h.head_parts hf
  have hhead := foldl_take_head hf hid hname hindent
  have hclean := h
  rw [← List.singleton_append, ← List.append_assoc, clean_append, hhead] at hclean
  obtain ⟨texts, inner, nested, outdent, rest, rfl, htexts, _, hinner, houtdent⟩ :=
    hbody _ id k false outer behind (by simp at hn; omega) hclean
      (fun t ht => heof t (by simp [ht])) rfl (Document.lt_size_adopt hid id _)
  have hsplit : name?.toList ++ indent :: (texts ++ (inner ++ outdent :: rest)) =
      (name?.toList ++ indent :: (texts ++ (inner ++ [outdent]))) ++ rest := by simp
  refine ⟨name?, indent, texts, inner, nested, outdent, rest, hsplit, hname, hindent, htexts,
    hinner, houtdent, ?_⟩
  have hrun := foldl_take_inside hf hid hname hindent htexts (adopts_of_blocks hinner rfl) houtdent
  rwa [hsplit, clean_append, hrun] at h

/-- The induction is on the number of tokens, because a nested block is taken apart before the
tokens behind it. -/
theorem bodyParts (n : Nat) : BodyParts n := by
  induction n with
  | zero =>
    intro b id k seen outer ts hn h _ hf _
    exact absurd (List.length_eq_zero_iff.mp (by omega)) (h.ne_nil hf)
  | succ n ih =>
    intro b id k seen outer ts hn h heof hf hid
    obtain ⟨t, rest, rfl⟩ := List.exists_cons_of_ne_nil (h.ne_nil hf)
    have hp := h.problems_take
    have hnext : Clean (b.take t) rest := h
    have heof' : ∀ u ∈ rest, u.kind ≠ .endOfFile := fun u hu => heof u (by simp [hu])
    rw [List.length_cons] at hn
    by_cases htext : t.kind = .text
    · cases seen with
      | true => simp [take, hf, takeBody, htext] at hp
      | false =>
        have htake := @foldl_take_texts b id k outer [t] hf hid (by simpa using htext)
        simp only [List.foldl_cons, List.foldl_nil] at htake
        rw [htake] at hnext
        obtain ⟨texts, inner, nested, outdent, rest, rfl, htexts, _, hinner, houtdent⟩ :=
          ih _ id k false outer rest (by omega) hnext heof' hf (Document.lt_size_adopt hid id _)
        refine ⟨t :: texts, inner, nested, outdent, rest, rfl, ?_, by simp, hinner, houtdent⟩
        simpa [htext] using htexts
    · by_cases houtdent : t.kind = .outdent
      · exact ⟨[], [], [], t, rest, rfl, by simp, by simp, .nil, houtdent⟩
      · have hclose : closes t.kind = false := by
          simp [closes, houtdent, heof t (by simp)]
        by_cases hnested : t.kind = .context ∧ k = .context
        · obtain ⟨hcontext, rfl⟩ := hnested
          rw [take_nested hf hid hcontext] at hnext
          obtain ⟨name?, indent, texts, inner, nested, outdent, rest, rfl, hname, hindent, htexts,
            hinner, houtdent, hbehind⟩ :=
            ih.inside (by omega) hnext heof' rfl (Document.size_lt_size_adopt _ _ _)
          have hid' : id < ((b.document.adopt id [leaf t]).adopt b.document.size
              (name?.toList.map leaf ++ (texts.map leaf ++ nested))).size :=
            Document.lt_size_adopt (Document.lt_size_adopt hid id _) _ _
          rw [List.length_append] at hn
          obtain ⟨texts', inner', nested', outdent', rest', rfl, _, hnil, hinner', houtdent'⟩ :=
            ih _ id .context true outer rest (by omega) hbehind (fun u hu => heof' u (by simp [hu]))
              rfl hid'
          rw [hnil rfl]
          refine ⟨[], blockTokens t name? indent texts inner outdent ++ inner',
            blockTree t name? texts nested :: nested', outdent', rest', by simp [blockTokens],
            by simp, by simp, ?_, houtdent'⟩
          rw [← hcontext] at hinner
          exact .cons (mem_nestedKinds_iff.mpr ⟨hcontext, rfl⟩) hname hindent htexts hinner houtdent
            hinner'
        · simp [take, hf, takeBody, htext, hnested, hclose] at hp

/-- A clean run from the top, behind the blocks `done`, is over the blocks of a document. -/
theorem Clean.blocks (n : Nat) : ∀ (b : Builder) (done : List Tree) (ts : List Token),
    ts.length ≤ n → Clean b ts → (∀ t ∈ ts, t.kind ≠ .endOfFile) → b.frames = [] →
    b.document = .ofForest done → (done.map (·.content.kind)).Nodup →
    ∃ forest, Blocks topKinds ts forest ∧ ((done ++ forest).map (·.content.kind)).Nodup := by
  induction n with
  | zero =>
    intro b done ts hn _ _ _ _ hnodup
    rw [List.length_eq_zero_iff.mp (by omega : ts.length = 0)]
    exact ⟨[], .nil, by simpa using hnodup⟩
  | succ n ih =>
    intro b done ts hn h heof hf hd hnodup
    cases ts with
    | nil => exact ⟨[], .nil, by simpa using hnodup⟩
    | cons t rest =>
      have hp := h.problems_take
      have hnext : Clean (b.take t) rest := h
      have heof' : ∀ u ∈ rest, u.kind ≠ .endOfFile := fun u hu => heof u (by simp [hu])
      cases hs : Section.ofKind? t.kind with
      | none => simp [take, hf, takeTop, hs, heof t (by simp)] at hp
      | some s =>
        have hk : s.kind = t.kind := Section.kind_of_ofKind? hs
        cases hroot : b.document.root? s with
        | some id => simp [take, hf, takeTop, hs, hroot, openSection] at hp
        | none =>
          rw [List.length_cons] at hn
          rw [take_section hf hk hroot] at hnext
          obtain ⟨name?, indent, texts, inner, nested, outdent, rest, rfl, hname, hindent, htexts,
            hinner, houtdent, hbehind⟩ :=
            (bodyParts n).inside (by omega) hnext heof' rfl (size_lt_section _ _)
          have hblock : t.kind.isBlock = true := by rw [← Section.isSome_ofKind?, hs]; rfl
          have hnew : t.kind ∉ done.map (·.content.kind) := by
            rw [hd, Document.root?_ofForest, hk] at hroot
            exact (Document.placeOf?_eq_none_iff _ 0 done).mp hroot
          have hdoc := Document.ofForest_concat (t := blockTree t name? texts nested) hblock hnew
          rw [Document.adopt_setRoot, leaf, Document.adopt_plant, hd] at hbehind
          rw [List.length_append] at hn
          obtain ⟨others, hothers, hdistinct⟩ :=
            ih _ (done ++ [blockTree t name? texts nested]) rest
            (by omega) hbehind (fun u hu => heof' u (by simp [hu])) rfl hdoc.symm
            (by simpa [List.nodup_append, hnodup] using hnew)
          refine ⟨blockTree t name? texts nested :: others, ?_, by simpa using hdistinct⟩
          exact .cons ((mem_topKinds_iff _).mpr hblock) hname hindent htexts hinner houtdent hothers

/-! ### Runs that end early -/

/-- Only the innermost open block can lack its body. -/
def Settled (frames : List Frame) : Prop := ∀ f ∈ frames.tail, ∃ nested, f.phase = .body nested

private theorem Settled.outer {f : Frame} {outer : List Frame} (h : Settled (f :: outer)) :
    Settled outer := fun g hg => h g (List.mem_of_mem_tail hg)

private theorem Settled.replace {f g : Frame} {outer : List Frame} (h : Settled (f :: outer)) :
    Settled (g :: outer) := h

private theorem settled_missIndent {b : Builder} {f : Frame} {outer : List Frame}
    (h : Settled (f :: outer)) (t : Token) (message : String) :
    Settled (b.missIndent f outer t message).frames := by
  unfold missIndent
  split
  · exact h.outer
  · exact h.replace

/-- Every token keeps the blocks around the innermost one in their bodies. -/
theorem settled_take {b : Builder} (h : Settled b.frames) (t : Token) :
    Settled (b.take t).frames := by
  unfold take
  split
  · next hf =>
    unfold takeTop
    split
    · intro f hm
      cases hm
    · split
      · exact h
      · exact h
  · next f outer hf =>
    rw [hf] at h
    split
    · split
      · exact h.replace
      · split
        · exact h.replace
        · exact settled_missIndent h t _
    · split
      · exact h.replace
      · exact settled_missIndent h t _
    · unfold takeBody
      split
      · split
        · simpa [report, note, hf] using h
        · simpa [addBelow, hf] using h
      · split
        · intro g hg
          simp only [openNested, List.tail_cons, List.mem_cons] at hg
          rcases hg with rfl | hg
          · exact ⟨true, rfl⟩
          · exact h g hg
        · split
          · exact h.outer
          · simpa [report, note, hf] using h

private theorem settled_foldl_take (ts : List Token) {b : Builder} (h : Settled b.frames) :
    Settled (ts.foldl take b).frames := by
  induction ts generalizing b with
  | nil => exact h
  | cons t ts ih => exact ih (settled_take h t)

/-- Blocks in their bodies are closed by as many outdents. -/
theorem clean_outdents {outdent : Token} (ho : outdent.kind = .outdent) :
    ∀ (frames : List Frame) (b : Builder), b.frames = frames → b.problems = [] →
    (∀ f ∈ frames, ∃ nested, f.phase = .body nested) →
    Clean b (List.replicate frames.length outdent) := by
  intro frames
  induction frames with
  | nil => intro b hf hp _; exact ⟨hp, hf⟩
  | cons f outer ih =>
    intro b hf hp hbody
    obtain ⟨nested, hphase⟩ := hbody f (by simp)
    have htake : b.take outdent = { b with frames := outer } := by
      simp [take, hf, hphase, takeBody, ho, closes]
    have hrest := ih { b with frames := outer } rfl hp fun g hg => hbody g (by simp [hg])
    rw [List.length_cons, List.replicate_succ, ← List.singleton_append, clean_append,
      List.foldl_cons, List.foldl_nil, htake]
    exact hrest

/-- Where the end of the input is taken without a report, the innermost block is in its body. -/
theorem phase_of_ending {b : Builder} {f : Frame} {outer : List Frame} {ending : Token}
    (he : ending.kind = .endOfFile) (hf : b.frames = f :: outer)
    (hp : (b.take ending).problems = []) : ∃ nested, f.phase = .body nested := by
  cases hphase : f.phase with
  | keyword => simp [take, hf, hphase, he] at hp
  | name => simp [take, hf, hphase, he] at hp
  | body nested => exact ⟨nested, rfl⟩

/-- Tokens that are built without a problem are derivable. -/
theorem derivable_of_build {ts : List Token} {ending : Token} {d : Document}
    (heof : ∀ t ∈ ts, t.kind ≠ .endOfFile) (he : ending.kind = .endOfFile)
    (h : build (ts.map .token) (.finished ending) = .ok d) : Derivable ts := by
  simp only [build, foldl_event_tokens, close, result] at h
  split at h
  · next hempty =>
    have hp : ((ts.foldl take {}).take ending).problems = [] := List.isEmpty_iff.mp hempty
    have hbody : ∀ f ∈ (ts.foldl take {}).frames, ∃ nested, f.phase = .body nested := by
      have hsettled := @settled_foldl_take ts {} (fun f hm => by cases hm)
      cases hf : (ts.foldl take {}).frames with
      | nil => intro f hm; cases hm
      | cons f outer =>
        rw [hf] at hsettled
        intro g hg
        rcases List.mem_cons.mp hg with rfl | hg
        · exact phase_of_ending he hf hp
        · exact hsettled g hg
    have hpts : (ts.foldl take {}).problems = [] := by
      have hpre := problems_take (ts.foldl take {}) ending
      rw [hp] at hpre
      exact List.prefix_nil.mp hpre
    -- The end of the input stands for one outdent for each open block.
    let outdent : Token := { ending with kind := .outdent }
    let closing := List.replicate (ts.foldl take {}).frames.length outdent
    have hclosing : ∀ t ∈ closing, t.kind = .outdent := fun t ht => by
      rw [List.eq_of_mem_replicate ht]
    have hclean : Clean {} (ts ++ closing) := by
      rw [clean_append]
      exact clean_outdents rfl _ _ rfl hpts hbody
    have heof' : ∀ t ∈ ts ++ closing, t.kind ≠ .endOfFile := by
      intro t ht
      rcases List.mem_append.mp ht with ht | ht
      · exact heof t ht
      · simp [hclosing t ht]
    obtain ⟨forest, hblocks, hdistinct⟩ :=
      Clean.blocks _ {} [] _ (Nat.le_refl _) hclean heof' rfl rfl List.nodup_nil
    exact ⟨closing, forest, hclosing, hblocks, hdistinct⟩
  · cases h

private theorem ne_nil_of_build_error {events : List Event} {outcome : Stream.Outcome}
    {problems : List Diagnostic} (h : build events outcome = .error problems) : problems ≠ [] := by
  have hresult {b : Builder} (hb : b.result = .error problems) : problems ≠ [] := by
    unfold result at hb
    split at hb
    · cases hb
    · next hne =>
      cases hb
      simpa using hne
  unfold build at h
  split at h
  · exact hresult h
  · exact hresult h

end PromptOutline.Builder

namespace PromptOutline.Compile

open Grammar

/-- Where directives report nothing, exactly the derivable tokens give a document, and it holds the
derived trees: the section of each kind is the block of that kind, with its name, its texts and its
nested blocks below it. Tokens with a stray one among them give problems. -/
theorem readStream_iff_derivable {w : Workspace} {width : UInt64} {sources : Sources}
    {opened : List (List Token)} {ts : List Token} {ending : Token}
    (h : ({ sources, opened } : Stream).run w width = (ts.map .token, .finished ending)) :
    ((∃ d, readStream w width { sources, opened } = .ok d) ↔ Derivable ts) ∧
    (∀ closing forest, (∀ t ∈ closing, t.kind = .outdent) → IsDocument (ts ++ closing) forest →
      readStream w width { sources, opened } = .ok (.ofForest forest) ∧
        ∀ s, (Document.ofForest forest).sectionTree? s =
          forest.find? (·.content.kind = s.kind)) ∧
    (∀ before t rest, ts = before ++ t :: rest → Stray before t →
      ∃ problems, problems ≠ [] ∧ readStream w width { sources, opened } = .error problems) := by
  have hread : readStream w width { sources, opened } =
      Builder.build (ts.map .token) (.finished ending) := by
    rw [readStream, h]
  have hending : ending.kind = .endOfFile :=
    Stream.kind_of_ending (w := w) ⟨sources, opened, .endOfFile "" 0⟩ rfl (congrArg Prod.snd h)
  have heof : ∀ t ∈ ts, t.kind ≠ .endOfFile := by
    intro t ht hk
    have hm : .token t ∈ (Stream.run w width { sources, opened }).1 := by
      rw [h]
      exact List.mem_map_of_mem ht
    have hinner := Stream.kind_of_mem_run _ t hm
    rw [hk] at hinner
    cases hinner
  have hbuild {closing : List Token} {forest : List Tree} (hc : ∀ t ∈ closing, t.kind = .outdent)
      (hd : IsDocument (ts ++ closing) forest) :
      readStream w width { sources, opened } = .ok (.ofForest forest) := by
    rw [hread]
    exact Builder.build_of_isDocument hc hd hending
  have hiff : (∃ d, readStream w width { sources, opened } = .ok d) ↔ Derivable ts := by
    constructor
    · rintro ⟨d, hd⟩
      rw [hread] at hd
      exact Builder.derivable_of_build heof hending hd
    · rintro ⟨closing, forest, hc, hd⟩
      exact ⟨_, hbuild hc hd⟩
  refine ⟨hiff, ?_, ?_⟩
  · intro closing forest hc hd
    exact ⟨hbuild hc hd, Document.sectionTree?_ofForest forest⟩
  · intro before t rest hts hstray
    cases hr : readStream w width { sources, opened } with
    | ok d =>
      have hder := hiff.mp ⟨d, hr⟩
      rw [hts] at hder
      exact absurd hder (not_derivable_of_stray hstray)
    | error problems =>
      rw [hread] at hr
      exact ⟨problems, Builder.ne_nil_of_build_error hr, rfl⟩

/-- A context with a name, a text and a nested context that the end of the input closes. -/
def nestedSample : List Token :=
  [⟨.context, "Context:", "Context: Plan", "plan", 1, 1⟩,
    ⟨.keywordText, "Plan", "Context: Plan", "plan", 1, 10⟩,
    ⟨.indent, "[Indent]", "    First", "plan", 2, 5⟩,
    ⟨.text, "First", "    First", "plan", 2, 5⟩,
    ⟨.context, "Context:", "    Context:", "plan", 3, 5⟩,
    ⟨.indent, "[Indent]", "        Then", "plan", 4, 9⟩,
    ⟨.text, "Then", "        Then", "plan", 4, 9⟩]

private theorem run_nestedSample :
    ({ sources := {}, opened := [nestedSample ++ [.endOfFile "plan" 5]] } : Stream).run {} 4 =
      (nestedSample.map .token, .finished (.endOfFile "plan" 5)) := by
  simp only [nestedSample, List.cons_append, List.nil_append]
  rw [Stream.run_of_next rfl, Stream.run_of_next rfl, Stream.run_of_next rfl,
    Stream.run_of_next rfl, Stream.run_of_next rfl, Stream.run_of_next rfl, Stream.run_of_next rfl,
    Stream.run_of_next rfl, Stream.run_of_finished rfl]
  rfl

/-- The trees of `nestedSample`. -/
def nestedSampleForest : List Tree :=
  [.node ⟨.context, "", 1, 1, .line⟩
    [.node ⟨.keywordText, "Plan", 1, 10, .line⟩ [], .node ⟨.text, "First", 2, 5, .line⟩ [],
      .node ⟨.context, "", 3, 5, .line⟩ [.node ⟨.text, "Then", 4, 9, .line⟩ []]]]

private theorem isDocument_nestedSample (outdent : Token) (h : outdent.kind = .outdent) :
    IsDocument (nestedSample ++ [outdent, outdent]) nestedSampleForest := by
  have hinner : Blocks (nestedKinds .context)
      (blockTokens ⟨.context, "Context:", "    Context:", "plan", 3, 5⟩ none
        ⟨.indent, "[Indent]", "        Then", "plan", 4, 9⟩
        [⟨.text, "Then", "        Then", "plan", 4, 9⟩] [] outdent ++ []) _ :=
    .cons (by decide) (by simp) rfl (by simp) .nil h .nil
  have houter : Blocks topKinds
      (blockTokens ⟨.context, "Context:", "Context: Plan", "plan", 1, 1⟩
        (some ⟨.keywordText, "Plan", "Context: Plan", "plan", 1, 10⟩)
        ⟨.indent, "[Indent]", "    First", "plan", 2, 5⟩
        [⟨.text, "First", "    First", "plan", 2, 5⟩] _ outdent ++ []) _ :=
    .cons (by decide) (by simp) rfl (by simp) hinner h .nil
  exact ⟨houter, by simp [nestedSampleForest]⟩

/-- The sample runs through the stream, and its one section is the derived tree. -/
theorem readStream_nestedSample :
    ({ sources := {}, opened := [nestedSample ++ [.endOfFile "plan" 5]] } : Stream).run {} 4 =
        (nestedSample.map .token, .finished (.endOfFile "plan" 5)) ∧
      Derivable nestedSample ∧
      readStream {} 4 { sources := {}, opened := [nestedSample ++ [.endOfFile "plan" 5]] } =
        .ok (.ofForest nestedSampleForest) := by
  have houtdent : ({ (default : Token) with kind := .outdent } : Token).kind = .outdent := rfl
  have hdoc := isDocument_nestedSample _ houtdent
  have hthm := readStream_iff_derivable run_nestedSample
  have hread := (hthm.2.1 _ _ (by simp) hdoc).1
  exact ⟨run_nestedSample, hthm.1.mp ⟨_, hread⟩, hread⟩

end PromptOutline.Compile
