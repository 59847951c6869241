import SceneTokens.Proofs.Seams

/-!
# One source or two

Whether two scenes are attached one after the other, or stand in one source one behind the other,
makes no difference to what is read, if the first ends with a newline and leaves nothing open
(`Tokenizer.drain_concat`).

In both phases a tokenizer of the single source goes along with a tokenizer of one of the two
(`Tokenizer.Beside`): each reads what the other reads, at positions that `f` leads to, and a
malformed escape is found at the place that belongs to it (`Lexeme.interpret_moved`). At the end of
the first scene the tokenizer of the single source reads on, and goes along with the one that starts
on the second scene (`Tokenizer.drain_seam`).
-/

namespace SceneTokens

open Grammar

/-! ## Items at other positions -/

/-- The token at another position. -/
def Token.moved (f : Position → Position) (t : Token) : Token :=
  { t with lexeme := t.lexeme.moved f }

/-- The fault in another input, at another position. -/
def TokenFault.moved (input : Handle) (f : Position → Position) : TokenFault → TokenFault
  | .invalidEscape _ position text => .invalidEscape (some input) (f position) text
  | .malformedNumber position text => .malformedNumber (f position) text
  | .unexpectedLexeme position text => .unexpectedLexeme (f position) text
  | fault => fault

/-- The item in another input, at another position. -/
def Item.moved (input : Handle) (f : Position → Position) : Item → Item
  | .ok token => .ok (token.moved f)
  | .error fault => .error (fault.moved input f)

/-- The content of `h` stands in `h'`, in front of `more`, and `f` leads from its positions to
those it has there. -/
structure Handle.Embedded (f : Position → Position) (h h' : Handle) (more : Bytes) : Prop where
  drop : ∀ p : Position, p.offset ≤ h.content.length →
    h'.content.drop (f p).offset = h.content.drop p.offset ++ more
  advance : ∀ (p : Position) (bytes : Bytes), (f p).advance bytes = f (p.advance bytes)

/-- The first content is at the front of both, with the positions it has. -/
theorem Handle.embedded_first {a b ab : Handle} (h : ab.content = a.content ++ b.content) :
    Embedded id a ab b.content where
  drop p hp := by rw [id, h, List.drop_append_of_le_length hp]
  advance _ _ := rfl

/-- The second is at the end, with its positions behind the first. -/
theorem Handle.embedded_second {a b ab : Handle} (h : ab.content = a.content ++ b.content) :
    Embedded (.behind a.content) b ab [] where
  drop p _ := by
    rw [h, Position.behind, Nat.add_comm, List.append_nil, ← List.drop_drop, List.drop_left]
  advance p bytes := p.advance_behind a.content bytes

namespace Lexeme

@[simp] theorem moved_category (f : Position → Position) (l : Lexeme) :
    (l.moved f).category = l.category := rfl

@[simp] theorem moved_text (f : Position → Position) (l : Lexeme) :
    (l.moved f).text = l.text := rfl

/-- The meaning of a word, a number or a symbol has nothing to do with its place. -/
theorem interpret_moved_of_ne {l : Lexeme} (hc : l.category ≠ .string) (f : Position → Position)
    (h h' : Handle) (words : WordTable) :
    ((l.moved f).interpret (some h') words).value =
      Item.moved h' f (l.interpret (some h) words).value := by
  unfold interpret
  rw [moved_category]
  split
  · simp only [interpretWord, moved_text]
    split <;> rfl
  · simp only [interpretNumber, moved_text]
    split <;> rfl
  · exact absurd ‹_› hc
  · simp only [interpretSymbol, moved_text]
    split <;> rfl

/-- A malformed escape is found at the place that belongs to it. -/
theorem interpretString_moved {f : Position → Position} {h h' : Handle} {more raw after : Bytes}
    {l : Lexeme} {encoding : Encoding} (hf : Handle.Embedded f h h' more) (hraw : Literal raw)
    (htext : l.text = encoding.transcodeAll raw)
    (hsource : h.content.drop l.position.offset = raw ++ after)
    (hsource' : h'.content.drop (l.moved f).position.offset = raw ++ (after ++ more))
    (words : WordTable) :
    ((l.moved f).interpretString (some h') words).value =
      Item.moved h' f (l.interpretString (some h) words).value := by
  by_cases hquoted : isQuoted l.text = true
  · simp only [interpretString, moved_text, hquoted, if_true]
    cases hdecode : Payload.decode (payload l.text) with
    | ok units => rfl
    | error fault =>
      -- in both sources the place is where the first malformed escape of the literal stands
      rw [htext] at hdecode
      obtain ⟨front, back, hfirst, hoffset, -⟩ := exists_firstMalformed hraw hdecode
      simp only [hoffset, escapePosition_eq hfirst hsource htext,
        escapePosition_eq (l := l.moved f) hfirst hsource' htext]
      exact congrArg (fun p => Except.error (TokenFault.invalidEscape (some h') p fault.text))
        (hf.advance l.position (Byte.quote :: front))
  · simp only [interpretString, moved_text, hquoted]
    rfl

/-- A lexeme means the same in a source that holds its own. -/
theorem interpret_moved {f : Position → Position} {h h' : Handle} {more raw after : Bytes}
    {l : Lexeme} {encoding : Encoding} (hf : Handle.Embedded f h h' more)
    (hspelled : Spelled l.category raw after)
    (htext : l.text = if l.category = .string then encoding.transcodeAll raw else raw)
    (hposition : l.position.offset ≤ h.content.length)
    (hsource : h.content.drop l.position.offset = raw ++ after) (words : WordTable) :
    ((l.moved f).interpret (some h') words).value =
        Item.moved h' f (l.interpret (some h) words).value ∧
      ((l.moved f).interpret (some h') words).state = (l.interpret (some h) words).state := by
  refine ⟨?_, by rw [interpret_state, interpret_state, moved_category, moved_text]⟩
  by_cases hc : l.category = .string
  · have hsource' : h'.content.drop (l.moved f).position.offset = raw ++ (after ++ more) := by
      rw [← List.append_assoc, ← hsource]
      exact hf.drop l.position hposition
    rw [if_pos hc] at htext
    have hmeaning := interpretString_moved hf (hspelled.literal hc) htext hsource hsource' words
    simpa only [interpret, moved_category, hc] using hmeaning
  · exact interpret_moved_of_ne hc f h h' words

end Lexeme

/-! ## Readers that go along -/

namespace Reader

/-- A reader at a place of `h`, and one with the same settings at the place of `h'` that `f` leads
to. -/
structure Beside (f : Position → Position) (h h' : Handle) (r r' : Reader) : Prop where
  settings : r'.settings = r.settings
  place : ∃ p : Position, p.In h.content ∧ r.cursor = some ⟨h, p⟩ ∧ r'.cursor = some ⟨h', f p⟩

/-- Reading from `p` on in `h` comes to the same as reading from `f p` on in `h'`. -/
def ReadsAlong (f : Position → Position) (h h' : Handle) (settings : Settings) (p : Position) :
    Prop :=
  let found := scan settings h.name p (h.content.drop p.offset)
  (scan settings h'.name (f p) (h'.content.drop (f p).offset)).outcome =
    (found.value.map (Lexeme.moved f), f found.state)

/-- Where reading comes to the same, two readers beside each other stay so. -/
theorem Beside.next {f : Position → Position} {h h' : Handle} {r r' : Reader}
    (hb : Beside f h h' r r')
    (hscan : ∀ p : Position, p.In h.content → r.cursor = some ⟨h, p⟩ →
      ReadsAlong f h h' r.settings p) :
    r'.next.value = r.next.value.map (Lexeme.moved f) ∧
      Beside f h h' r.next.state r'.next.state := by
  obtain ⟨p, hp, hc, hc'⟩ := hb.place
  obtain ⟨hvalue, hstate⟩ := Prod.mk.inj (hscan p hp hc)
  have hstanding : r.Standing := by
    intro c hcursor
    obtain rfl := Option.some.inj (hc.symm.trans hcursor)
    exact hp
  have hnext := next_eq_scan hc
  have hnext' := next_eq_scan hc'
  rw [hb.settings] at hnext'
  refine ⟨by rw [hnext, hnext']; exact hvalue, by rw [hnext, hnext'], ?_⟩
  refine ⟨_, hstanding.next ⟨h, _⟩ (by rw [hnext]), by rw [hnext], ?_⟩
  rw [hnext']
  exact congrArg (fun q => some (Cursor.mk h' q)) hstate

end Reader

/-! ## Tokenizers that go along -/

namespace Tokenizer

/-- Two tokenizers with the same words whose readers are beside each other. -/
structure Beside (f : Position → Position) (h h' : Handle) (t t' : Tokenizer Reader) : Prop where
  words : t'.words = t.words
  scanner : t.scanner.Beside f h h' t'.scanner

/-- Two tokenizers that read the same lexeme read the same item, and stay beside each other. -/
theorem Beside.next {f : Position → Position} {h h' : Handle} {more : Bytes}
    {t t' : Tokenizer Reader} (hf : Handle.Embedded f h h' more) (hb : Beside f h h' t t')
    (hscan : ∀ p : Position, p.In h.content → t.scanner.cursor = some ⟨h, p⟩ →
      Reader.ReadsAlong f h h' t.scanner.settings p) :
    t'.next.value = t.next.value.map (Item.moved h' f) ∧
      Beside f h h' t.next.state t'.next.state := by
  obtain ⟨hvalue, hscanner⟩ := hb.scanner.next hscan
  obtain ⟨p, hp, hc, hc'⟩ := hb.scanner.place
  cases hl : (Scanner.next t.scanner).value with
  | none =>
    have hl' : (Scanner.next t'.scanner).value = none := hvalue.trans (congrArg _ hl)
    rw [next_of_none hl, next_of_none hl']
    exact ⟨rfl, hb.words, hscanner⟩
  | some l =>
    have hl' : (Scanner.next t'.scanner).value = some (l.moved f) := hvalue.trans (congrArg _ hl)
    obtain ⟨stop, gap, raw, after, hfound, -⟩ := Reader.next_found hc hl
    obtain ⟨q, -, hq, hq'⟩ := hscanner.place
    have hinput : Scanner.input? (Scanner.next t.scanner).state = some h :=
      congrArg (Option.map Cursor.handle) hq
    have hinput' : Scanner.input? (Scanner.next t'.scanner).state = some h' :=
      congrArg (Option.map Cursor.handle) hq'
    have hsource : h.content.drop l.position.offset = raw ++ after := hfound.start_rest
    have hposition : l.position.In h.content := hfound.start ▸ hp.advance hfound.split
    obtain ⟨hmeaning, hwords⟩ :=
      Lexeme.interpret_moved hf hfound.spelled hfound.text hposition.1 hsource t.words
    rw [next_of_some hl, next_of_some hl']
    dsimp only
    rw [hinput, hinput', hb.words, hmeaning]
    exact ⟨rfl, hwords, hscanner⟩

/-- Tokenizers that read the same wherever they get are beside each other to the end. -/
theorem drain_of_beside {f : Position → Position} {h h' : Handle} {more : Bytes}
    (hf : Handle.Embedded f h h' more)
    (hscan : ∀ (settings : Settings) (p : Position), p.In h.content →
      Reader.ReadsAlong f h h' settings p) (t : Tokenizer Reader) :
    ∀ t' : Tokenizer Reader, Beside f h h' t t' →
      t'.drain.value = t.drain.value.map (Item.moved h' f) ∧
        t'.drain.state.words = t.drain.state.words := by
  fun_induction drain t with
  | case1 t step hnone =>
    intro t' hb
    obtain ⟨hvalue, hnext⟩ := hb.next hf fun p hp _ => hscan t.scanner.settings p hp
    have hnone' : t'.next.value = none := hvalue.trans (congrArg _ hnone)
    rw [drain_of_none hnone']
    exact ⟨rfl, hnext.words⟩
  | case2 t step item hsome more ih =>
    intro t' hb
    obtain ⟨hvalue, hnext⟩ := hb.next hf fun p hp _ => hscan t.scanner.settings p hp
    have hsome' : t'.next.value = some (item.moved h' f) := hvalue.trans (congrArg _ hsome)
    obtain ⟨hitems, hwords⟩ := ih t'.next.state hnext
    rw [drain_of_some hsome']
    exact ⟨congrArg (item.moved h' f :: ·) hitems, hwords⟩

/-! ## Over the seam -/

/-- A tokenizer depends on its reader only by what that reads and where it then stands. -/
theorem next_outcome_congr {t s : Tokenizer Reader} (hwords : t.words = s.words)
    (h : (Scanner.next t.scanner).outcome = (Scanner.next s.scanner).outcome) :
    t.next.outcome = s.next.outcome := by
  obtain ⟨hvalue, hstate⟩ := Prod.mk.inj h
  cases hl : (Scanner.next s.scanner).value with
  | none =>
    rw [next_of_none (hvalue.trans hl), next_of_none hl, hstate, hwords]
    rfl
  | some l =>
    rw [next_of_some (hvalue.trans hl), next_of_some hl]
    simp only [Step.outcome, hstate, hwords]

/-- Where two tokenizers read the same item and get to the same state, it does not matter which
of them reads. -/
theorem drain_outcome_congr {t s : Tokenizer Reader} (h : t.next.outcome = s.next.outcome) :
    t.drain.outcome = s.drain.outcome := by
  obtain ⟨hvalue, hstate⟩ := Prod.mk.inj h
  cases hitem : s.next.value with
  | none =>
    rw [drain_of_none (hvalue.trans hitem), drain_of_none hitem, hstate]
    rfl
  | some item =>
    rw [drain_of_some (hvalue.trans hitem), drain_of_some hitem, hstate]
    rfl

end Tokenizer

namespace Reader

/-- The second scene is read behind the first as it is read alone. -/
theorem readsAlong_second {a b ab : Handle} (hab : ab.content = a.content ++ b.content)
    (hne : a.content ≠ []) (settings : Settings) {p : Position} (hp : p.In b.content) :
    ReadsAlong (.behind a.content) b ab settings p := by
  unfold ReadsAlong
  rw [(Handle.embedded_second hab).drop p hp.1, List.append_nil]
  exact scan_behind hne settings b.name ab.name p _

/-- A lexeme of the first scene is read in front of the second as it is read alone. -/
theorem readsAlong_first {a b ab : Handle} (hab : ab.content = a.content ++ b.content)
    (hend : Ended a.content) {settings : Settings} {p : Position} (hp : p.In a.content)
    (hclosed : ∀ e ∈ (scan settings a.name p (a.content.drop p.offset)).events,
      e.isUnclosed = false)
    (hsome : (scan settings a.name p (a.content.drop p.offset)).value.isSome = true) :
    ReadsAlong id a ab settings p := by
  have hscan := scan_append (hend.drop p.offset) hclosed ab.name b.content
  rw [if_pos hsome] at hscan
  unfold ReadsAlong
  rw [(Handle.embedded_first hab).drop p hp.1]
  exact hscan.trans (congrArg (·, _) Option.map_id'.symm)

/-- The reader at the place in `ab` where `a` ends. -/
def atSeam (a ab : Handle) (r : Reader) : Reader :=
  { r with cursor := some ⟨ab, Position.start.behind a.content⟩ }

/-- When the first scene has no more lexemes, the reader of both reads on as from the seam. -/
theorem Beside.next_seam {a b ab : Handle} {r r' : Reader}
    (hab : ab.content = a.content ++ b.content) (hend : a.content.getLast? = some Byte.newline)
    (hb : Beside id a ab r r') (hnone : r.next.value = none)
    (hclosed : ∀ e ∈ r.next.events, e.isUnclosed = false) :
    r'.next.outcome = (r'.atSeam a ab).next.outcome := by
  obtain ⟨p, hp, hc, hc'⟩ := hb.place
  rw [next_eq_scan hc] at hclosed hnone
  simp only [Cursor.rest] at hclosed hnone
  have hseam : p.advance (a.content.drop p.offset) = Position.start.behind a.content := by
    rw [← Position.start_behind hend, ← List.take_append_drop p.offset a.content,
      Position.advance_append, ← hp.2, List.take_append_drop]
  have hfirst : (Cursor.mk ab p).rest = a.content.drop p.offset ++ b.content :=
    (Handle.embedded_first hab).drop p hp.1
  have hsecond : (Cursor.mk ab (Position.start.behind a.content)).rest = b.content :=
    ((Handle.embedded_second hab).drop .start (Nat.zero_le _)).trans (List.append_nil _)
  have hscan := scan_append ((Ended.of_getLast? hend).drop p.offset) hclosed ab.name b.content
  rw [if_neg (by simpa using hnone), hseam, ← hfirst, ← hb.settings] at hscan
  rw [next_eq_scan hc', next_eq_scan (r := r'.atSeam a ab) rfl]
  dsimp only [id]
  rw [hsecond]
  exact congrArg (fun o => (o.1, { r' with cursor := some (Cursor.mk ab o.2) })) hscan

end Reader

namespace Tokenizer

/-- The tokenizer started over with a new input. The words stay known. -/
def attach (t : Tokenizer Reader) (h : Handle) : Tokenizer Reader :=
  { t with scanner := Scanner.attach t.scanner h }

/-- At the seam, the tokenizer of both scenes is beside one that starts on the second. -/
theorem Beside.attach {a ab : Handle} {t t' : Tokenizer Reader} (hb : Beside id a ab t t')
    (hl : (Scanner.next t.scanner).value = none) (b : Handle) :
    Beside (.behind a.content) b ab (t.next.state.attach b)
      ⟨t'.scanner.atSeam a ab, t'.words⟩ := by
  obtain ⟨p, -, hc, -⟩ := hb.scanner.place
  have hsettings : t.scanner.next.state.settings = t.scanner.settings := by
    rw [Reader.next_eq_scan hc]
  rw [next_of_none hl]
  exact ⟨hb.words, hb.scanner.settings.trans hsettings.symm, .start,
    Position.start_in b.content, rfl, rfl⟩

/-- A tokenizer that goes along with one on the first scene reads all of that, and then the second
scene as a tokenizer that goes on with it. -/
theorem drain_seam {a b ab : Handle} (hab : ab.content = a.content ++ b.content)
    (hend : a.content.getLast? = some Byte.newline) (t : Tokenizer Reader) :
    ∀ t' : Tokenizer Reader, Beside id a ab t t' →
      (∀ e ∈ (Scanner.drain t.scanner).events, e.isUnclosed = false) →
      let second := (t.drain.state.attach b).drain
      t'.drain.value = t.drain.value.map (Item.moved ab id) ++
          second.value.map (Item.moved ab (.behind a.content)) ∧
        t'.drain.state.words = second.state.words := by
  have hne : a.content ≠ [] := by
    intro hnil
    simp [hnil] at hend
  fun_induction drain t with
  | case1 t step hnone =>
    -- the first scene is read to its end, and the other tokenizer reads on over the seam
    intro t' hb hclosed second
    have hl : (Scanner.next t.scanner).value = none := by
      have hisSome := t.next_isSome
      rw [show t.next.value = none from hnone] at hisSome
      simpa using hisSome.symm
    rw [Scanner.drain_of_none hl] at hclosed
    have hseam := drain_outcome_congr (t := t') (s := ⟨t'.scanner.atSeam a ab, t'.words⟩)
      (next_outcome_congr rfl (hb.scanner.next_seam hab hend hl hclosed))
    obtain ⟨hvalue, hstate⟩ := Prod.mk.inj hseam
    obtain ⟨hitems, hwords⟩ := drain_of_beside (Handle.embedded_second hab)
      (fun settings p hp => Reader.readsAlong_second hab hne settings hp) _ _
      (hb.attach hl b)
    rw [hvalue, hstate]
    exact ⟨hitems, hwords⟩
  | case2 t step item hsome more ih =>
    intro t' hb hclosed second
    have hisSome : (Scanner.next t.scanner).value.isSome = true := by
      rw [← t.next_isSome]
      exact Option.isSome_of_eq_some hsome
    obtain ⟨l, hl⟩ := Option.isSome_iff_exists.1 hisSome
    rw [Scanner.drain_of_some hl] at hclosed
    have hscan : ∀ p : Position, p.In a.content → t.scanner.cursor = some ⟨a, p⟩ →
        Reader.ReadsAlong id a ab t.scanner.settings p := by
      intro p hp hc
      have hnext : Scanner.next t.scanner = _ := Reader.next_eq_scan hc
      rw [hnext] at hisSome hclosed
      exact Reader.readsAlong_first hab (.of_getLast? hend) hp
        (fun e he => hclosed e (List.mem_append_left _ he)) hisSome
    obtain ⟨hvalue, hbeside⟩ := hb.next (Handle.embedded_first hab) hscan
    have hsome' : t'.next.value = some (item.moved ab id) := hvalue.trans (congrArg _ hsome)
    have hclosed' : ∀ e ∈ (Scanner.drain step.state.scanner).events, e.isUnclosed = false := by
      intro e he
      rw [t.next_scanner] at he
      exact hclosed e (List.mem_append_right _ he)
    obtain ⟨hitems, hwords⟩ := ih t'.next.state hbeside hclosed'
    rw [drain_of_some hsome']
    exact ⟨congrArg (item.moved ab id :: ·) hitems, hwords⟩

/-- Reading a scene that ends with a newline and leaves nothing open, and then another one, gives
what reading both from one source gives. What comes from the second scene has other positions there:
its lines follow those of the first. -/
theorem drain_concat (a b ab : Handle) (hab : ab.content = a.content ++ b.content)
    (hend : a.content.getLast? = some Byte.newline) (settings : Settings)
    (reserved : List ReservedWord)
    (hclosed : ∀ e ∈ (Scanner.drain (Scanner.configure (Reader.ofHandle a) settings)).events,
      e.isUnclosed = false) :
    let start (h : Handle) := Tokenizer.ofVocabulary
      (Scanner.configure (Reader.ofHandle h) settings) reserved
    let first := (start a).drain
    let second := (first.state.attach b).drain
    let whole := (start ab).drain
    whole.value = first.value.map (Item.moved ab id) ++
        second.value.map (Item.moved ab (.behind a.content)) ∧
      whole.state.words = second.state.words := by
  intro start first second whole
  have hbeside : Beside id a ab (start a) (start ab) :=
    ⟨rfl, rfl, .start, Position.start_in a.content, rfl, rfl⟩
  exact drain_seam hab hend (start a) (start ab) hbeside hclosed

/-- A scene with a comment up to its end: `a//"`. -/
def plainScene : Handle :=
  ⟨0, ⟨"first", [97, 47, 47, 34, 10], by decide⟩⟩

/-- A scene with a byte order mark: `b = 1`, and in the next line `"\q"`. -/
def markedScene : Handle :=
  ⟨1, ⟨"second", [0xEF, 0xBB, 0xBF, 98, 61, 49, 10, 34, 92, 113, 34], by decide⟩⟩

/-- The two in one source. -/
def joinedScenes : Handle :=
  ⟨2, ⟨"both", plainScene.content ++ markedScene.content, by decide⟩⟩

/-- The byte order mark of the second scene is skipped byte by byte in the joined one, and the fault
of its literal is reported at its place behind the first scene. -/
theorem drain_joinedScenes :
    let start (h : Handle) := Tokenizer.ofVocabulary
      (Scanner.configure (Reader.ofHandle h) ⟨.latin1, true⟩) []
    (∀ e ∈ (Scanner.drain (Scanner.configure (Reader.ofHandle plainScene)
        ⟨.latin1, true⟩)).events, e.isUnclosed = false) ∧
      (start joinedScenes).drain.value.length = 5 ∧
      (start joinedScenes).drain.value.getLast? =
        some (.error (.invalidEscape (some joinedScenes) ⟨13, 3, 2⟩ [92, 113])) ∧
      (start joinedScenes).drain.state.words =
        ((start plainScene).drain.state.attach markedScene).drain.state.words := by
  intro start
  have hclosed : ∀ e ∈ (Scanner.drain (Scanner.configure (Reader.ofHandle plainScene)
      ⟨.latin1, true⟩)).events, e.isUnclosed = false := by decide +kernel
  have hfirst : (start plainScene).drain.value.length = 1 := by decide +kernel
  have hsecond : ((start plainScene).drain.state.attach markedScene).drain.value.length = 4 := by
    decide +kernel
  have hfault : ((start plainScene).drain.state.attach markedScene).drain.value.getLast? =
      some (.error (.invalidEscape (some markedScene) ⟨8, 2, 2⟩ [92, 113])) := by
    decide +kernel
  obtain ⟨hitems, hwords⟩ := drain_concat plainScene markedScene joinedScenes rfl rfl
    ⟨.latin1, true⟩ [] hclosed
  refine ⟨hclosed, ?_, ?_, hwords⟩
  · rw [hitems, List.length_append, List.length_map, List.length_map, hfirst, hsecond]
  · rw [hitems, List.getLast?_append, List.getLast?_map, hfault]
    rfl

end Tokenizer

end SceneTokens
