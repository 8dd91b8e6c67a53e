import Downlevel.Proofs.RoundTrip.Lexemes

/-! The tokens of a source and the gaps in front of them tile it, whatever modes they are read in. -/

namespace Downlevel.Lexer

open Text

/-- One token in each of the modes, each read where the one before it left the lexer. Unlike a run
this goes on behind the end of the source. -/
def steps : List LexMode → Cursor → Except Misread (List Step)
  | [], _ => return []
  | mode :: modes, here => do
    let one ← lexNext mode here
    return one :: (← steps modes one.next)

/-- Whether the text can be cut at a byte offset: inside of it, where two characters meet. -/
def IsBoundary (text : List Char) (offset : Nat) : Prop :=
  (splitBytes? offset text).isSome

/-- Where one text ends and another starts is a boundary. -/
theorem isBoundary_append (front back : List Char) : IsBoundary (front ++ back) (byteSize front) := by
  rw [IsBoundary, splitBytes?_append]
  rfl

/-- Text that only stands between tokens, in front of what follows it: blanks, line terminators and
whole comments. -/
inductive IsGap : (following gap : List Char) → Prop
  | nil (following : List Char) : IsGap following []
  | blank {following gap : List Char} {c : Char} :
    isBlank c = true → IsGap following gap → IsGap following (c :: gap)
  | lineBreak {following gap : List Char} {c : Char} :
    isLineTerminator c = true → IsGap following gap → IsGap following (c :: gap)
  /-- A line comment stops at a plain line terminator, which it does not hold, or at the end. -/
  | lineComment {following gap body : List Char} :
    (∀ c ∈ body, c ≠ '\n' ∧ c ≠ '\r') →
    (∀ c ∈ (gap ++ following).head?, c = '\n' ∨ c = '\r') →
    IsGap following gap → IsGap following ('/' :: '/' :: body ++ gap)
  /-- A block comment stops at the first place that closes it. -/
  | blockComment {following gap body : List Char} :
    ¬['*', '/'] <:+: body ++ ['*'] →
    IsGap following gap → IsGap following ('/' :: '*' :: body ++ '*' :: '/' :: gap)
  /-- A block comment that nothing closes runs to the end of the source. -/
  | openComment {body : List Char} :
    ¬['*', '/'] <:+: body → IsGap [] ('/' :: '*' :: body)

/-- The token of a step and the gap in front of it stand in the source behind the text in front of
them, as the mode asks. Offsets count bytes, and lie between characters. -/
structure IsTile (source front gap : List Char) (mode : LexMode) (one : Step) : Prop where
  split : source = front ++ gap ++ one.token.text.toList ++ one.next.rest
  start : one.token.span.start = byteSize (front ++ gap)
  stop : one.token.span.stop = byteSize (front ++ gap ++ one.token.text.toList)
  next : one.next.offset = one.token.span.stop
  /-- The token is as long as the scan of the text at its start says. Nothing cuts it short. -/
  size : one.token.text.length = (scan mode (one.token.text.toList ++ one.next.rest)).size
  isGap : IsGap (one.token.text.toList ++ one.next.rest) gap
  /-- Template text starts where it stands and goes on unless nothing is left. -/
  template : mode = .template →
    gap = [] ∧ (one.token.span.start < one.token.span.stop ∨ front = source)
  /-- Every other token is the end of the source or takes at least one character. -/
  other : mode ≠ .template →
    one.token.kind = .eof ∧ one.token.span = ⟨byteSize source, byteSize source⟩
      ∨ one.token.kind ≠ .eof ∧ one.token.span.start < one.token.span.stop

/-- Steps tile what the source holds behind the text in front of them: each stands where the one
before it stopped. -/
inductive Tiling (source : List Char) : (front : List Char) → List LexMode → List Step → Prop
  | done (front : List Char) : Tiling source front [] []
  | tile {front gap : List Char} {mode : LexMode} {modes : List LexMode} {one : Step}
      {more : List Step} :
    IsTile source front gap mode one →
    Tiling source (front ++ gap ++ one.token.text.toList) modes more →
    Tiling source front (mode :: modes) (one :: more)

/-- A block comment takes everything through the first place that closes it, or all there is. -/
theorem blockCommentTail_split (text : List Char) :
    (∃ body rest, text = body ++ '*' :: '/' :: rest ∧ ¬['*', '/'] <:+: body ++ ['*']
        ∧ blockCommentTail text = body.length + 2)
      ∨ ¬['*', '/'] <:+: text ∧ blockCommentTail text = text.length := by
  induction text with
  | nil => exact .inr ⟨by simp, rfl⟩
  | cons c rest ih =>
    by_cases closes : c = '*' ∧ rest.head? = some '/'
    · obtain ⟨rfl, follows⟩ := closes
      obtain ⟨tail, rfl⟩ := List.head?_eq_some_iff.mp follows
      have short : ¬['*', '/'] <:+: ([] : List Char) ++ ['*'] := fun inside => by
        simpa using inside.length_le
      exact .inl ⟨[], tail, rfl, short, by simp [blockCommentTail]⟩
    · have goesOn : blockCommentTail (c :: rest) = blockCommentTail rest + 1 := by
        simp [blockCommentTail, closes]
      -- No close starts at this character, so that one inside the longer text is inside the rest.
      have apart {tail : List Char} (same : tail.head? = rest.head? ∨ tail.head? = some '*')
          (none : ¬['*', '/'] <:+: tail) : ¬['*', '/'] <:+: c :: tail := fun inside => by
        rcases List.infix_cons_iff.mp inside with starts | later
        · obtain ⟨rfl, follows⟩ := List.cons_prefix_cons.mp starts
          obtain ⟨more, rfl⟩ := follows
          rcases same with same | same
          · exact closes ⟨rfl, same.symm⟩
          · cases same
        · exact none later
      rcases ih with ⟨body, tail, rfl, none, size⟩ | ⟨none, size⟩
      · refine .inl ⟨c :: body, tail, rfl, apart ?_ none, by rw [goesOn, size]; rfl⟩
        cases body with
        | nil => exact .inr rfl
        | cons d body => exact .inl rfl
      · exact .inr ⟨apart (.inl rfl) none, by rw [goesOn, size]; rfl⟩

/-- A line comment goes on to the end of its line. -/
theorem IsGap.pushLine {inside gap following : List Char}
    (cut : inside.dropWhile (fun next => next != '\n' && next != '\r') = gap ++ following)
    (rest : IsGap following gap) :
    IsGap following
      ('/' :: '/' :: inside.takeWhile (fun next => next != '\n' && next != '\r') ++ gap) := by
  refine .lineComment (fun c mem => ?_) (fun c mem => ?_) rest
  · simpa using List.all_eq_true.mp List.all_takeWhile c mem
  · have stops := List.head?_dropWhile_not (fun next => next != '\n' && next != '\r') inside
    rw [cut, Option.mem_def.mp mem] at stops
    simpa [Classical.or_iff_not_imp_left] using stops

/-- A block comment goes on to its close. -/
theorem IsGap.pushBlock {inside gap following : List Char}
    (cut : inside.drop (blockCommentTail inside) = gap ++ following) (rest : IsGap following gap) :
    IsGap following ('/' :: '*' :: inside.take (blockCommentTail inside) ++ gap) := by
  -- The comment is closed, or it goes on to the end of the file and nothing follows.
  rcases blockCommentTail_split inside with ⟨body, after, rfl, none, size⟩ | ⟨none, size⟩
  · have taken : (body ++ '*' :: '/' :: after).take (body.length + 2) = body ++ ['*', '/'] := by
      rw [List.take_length_add_append]
      rfl
    rw [size, taken]
    simpa using IsGap.blockComment none rest
  · rw [size, List.drop_length] at cut
    obtain ⟨rfl, rfl⟩ := List.append_eq_nil_iff.mp cut.symm
    rw [size, List.take_length]
    simpa using IsGap.openComment none

/-- One piece of trivia in front of a gap makes a longer gap. -/
theorem IsGap.push {text gap following : List Char} {piece : Trivia}
    (found : triviaPiece? text = some piece)
    (cut : text.drop piece.text.length = gap ++ following) (rest : IsGap following gap) :
    IsGap following (piece.text ++ gap) := by
  cases text with
  | nil => cases found
  | cons c tail =>
    simp only [triviaPiece?] at found
    split at found
    · cases found
      exact .lineBreak ‹_› rest
    split at found
    · cases found
      exact .blank ‹_› rest
    split at found
    · rename_i opens
      obtain ⟨rfl, follows⟩ := opens
      obtain ⟨inside, rfl⟩ := List.head?_eq_some_iff.mp follows
      cases found
      refine @IsGap.pushBlock inside _ _ ?_ rest
      -- The size of the piece is that of its tail and the opening.
      simpa [Trivia.text, Nat.min_eq_left (blockCommentTail_le inside)] using cut
    split at found
    · rename_i opens
      obtain ⟨rfl, follows⟩ := opens
      obtain ⟨inside, rfl⟩ := List.head?_eq_some_iff.mp follows
      cases found
      refine @IsGap.pushLine inside _ _ ?_ rest
      have behind := @List.drop_left _ (inside.takeWhile fun next => next != '\n' && next != '\r')
        (inside.dropWhile fun next => next != '\n' && next != '\r')
      rw [List.takeWhile_append_dropWhile] at behind
      exact behind.symm.trans cut
    · cases found

/-- The trivia at the start of a text is a gap, and none starts behind it. -/
theorem leadingTrivia_gap {fuel : Nat} {text : List Char} (enough : text.length ≤ fuel) :
    ∃ following, text = (leadingTrivia fuel text).flatMap Trivia.text ++ following
      ∧ IsGap following ((leadingTrivia fuel text).flatMap Trivia.text)
      ∧ triviaPiece? following = none := by
  -- Every piece takes at least a character, so the fuel lasts as long as the text.
  induction fuel generalizing text with
  | zero =>
    obtain rfl := List.eq_nil_of_length_eq_zero (Nat.le_zero.mp enough)
    exact ⟨[], rfl, .nil [], rfl⟩
  | succ fuel ih =>
    unfold leadingTrivia
    split
    · rename_i none
      exact ⟨text, rfl, .nil text, none⟩
    · rename_i piece found
      have nonempty := triviaPiece?_nonempty found
      have shorter : (text.drop piece.text.length).length ≤ fuel := by
        rw [List.length_drop]
        omega
      obtain ⟨following, cut, gap, none⟩ := ih shorter
      have whole := List.prefix_iff_eq_append.mp (triviaPiece?_isPrefix found)
      rw [List.flatMap_cons]
      refine ⟨following, ?_, gap.push found cut, none⟩
      rw [List.append_assoc, ← cut, whole]

/-- Going on by a whole front of the text leaves what is behind it. -/
theorem Cursor.advance_append (offset : Nat) (front back : List Char) :
    Cursor.advance ⟨offset, front ++ back⟩ front.length = ⟨offset + byteSize front, back⟩ := by
  simp [Cursor.advance]

/-- The parts of a step: a gap that only templates go without, and what a scan finds behind it. -/
theorem step_split (mode : LexMode) (here : Cursor) :
    ∃ gap following, here.rest = gap ++ following ∧ IsGap following gap
      ∧ (mode = .template → gap = []) ∧ (mode ≠ .template → triviaPiece? following = none)
      ∧ (step mode here).token.kind = (scan mode following).kind
      ∧ (step mode here).token.text.toList = following.take (scan mode following).size
      ∧ (step mode here).token.span.start = here.offset + byteSize gap
      ∧ (step mode here).token.span.stop = (step mode here).next.offset
      ∧ (step mode here).next = ⟨here.offset + byteSize gap
          + byteSize (following.take (scan mode following).size),
          following.drop (scan mode following).size⟩ := by
  obtain ⟨offset, rest⟩ := here
  -- In a template there is no gap, and outside it is the trivia, with none of it left behind.
  have found : ∃ gap following, rest = gap ++ following ∧ IsGap following gap
      ∧ (mode = .template → gap = []) ∧ (mode ≠ .template → triviaPiece? following = none)
      ∧ ((if mode = .template then [] else leadingTrivia rest.length rest).flatMap Trivia.text)
        = gap := by
    by_cases inside : mode = .template
    · exact ⟨[], rest, rfl, .nil rest, fun _ => rfl, absurd inside, by simp [inside]⟩
    · obtain ⟨following, split, gap, clear⟩ := leadingTrivia_gap (Nat.le_refl rest.length)
      exact ⟨_, following, split, gap, fun same => absurd same inside, fun _ => clear,
        by simp [inside]⟩
  obtain ⟨gap, following, rfl, isGap, template, clear, trivia⟩ := found
  refine ⟨gap, following, rfl, isGap, template, clear, ?_⟩
  unfold step
  -- The token is then what is scanned behind the gap, and the cursor moves over both.
  dsimp only
  rw [trivia, Cursor.advance_append]
  simp [Cursor.advance]

/-- Every step adds a tile behind the text in front of it. -/
theorem step_isTile {source front : List Char} {here : Cursor} (mode : LexMode)
    (split : source = front ++ here.rest) (reached : here.offset = byteSize front) :
    ∃ gap, IsTile source front gap mode (step mode here) := by
  obtain ⟨gap, following, cut, isGap, template, clear, kind, text, start, stop, next⟩ :=
    step_split mode here
  have offset := congrArg Cursor.offset next
  have rest := congrArg Cursor.rest next
  dsimp only at offset rest
  have whole : following = (step mode here).token.text.toList ++ (step mode here).next.rest := by
    rw [text, rest, List.take_append_drop]
  -- Only at the end of the source is there nothing to take.
  have advances {c : Char} {tail : List Char} (some : following = c :: tail) :
      (step mode here).token.kind ≠ .eof
        ∧ (step mode here).token.span.start < (step mode here).token.span.stop := by
    subst some
    obtain ⟨fits, positive⟩ := scan_cons mode c tail
    obtain ⟨count, size⟩ := Nat.exists_eq_succ_of_ne_zero (Nat.ne_of_gt positive)
    have first := c.utf8Size_pos
    rw [kind, start, stop, offset, size, List.take_succ_cons, byteSize]
    exact ⟨fits.goesOn, by omega⟩
  exact ⟨gap,
    { split := by simp only [split, cut, whole, List.append_assoc]
      start := by rw [start, reached, byteSize_append]
      stop := by rw [stop, offset, reached, text, byteSize_append, byteSize_append]
      next := stop.symm
      size := by
        rw [← whole, ← String.length_toList, text, List.length_take]
        exact Nat.min_eq_left (scan_size_le mode following)
      isGap := whole ▸ isGap
      template := fun inside => by
        refine ⟨template inside, ?_⟩
        cases following with
        | nil => exact .inr (by rw [split, cut, template inside]; simp)
        | cons c tail => exact .inl (advances rfl).2
      other := fun outside => by
        cases following with
        | nil =>
          rw [scan_nil, if_neg outside] at kind offset
          have size : byteSize source = here.offset + byteSize gap := by
            rw [reached, split, cut, List.append_nil, byteSize_append]
          have span : (step mode here).token.span = ⟨(step mode here).token.span.start,
            (step mode here).token.span.stop⟩ := rfl
          refine .inl ⟨kind, ?_⟩
          rw [span, size, stop, offset, start]
          rfl
        | cons c tail => exact .inr (advances rfl) }⟩

/-- Steps from a place tile what is left of the source there, in whatever modes, and no slice of any of
them is missing. By induction on the modes: each step leaves behind its tile a place from which the
others go on. -/
theorem steps_tiling {source front : List Char} {here : Cursor} (modes : List LexMode)
    (split : source = front ++ here.rest) (reached : here.offset = byteSize front) :
    ∃ all, steps modes here = .ok all ∧ Tiling source front modes all := by
  induction modes generalizing front here with
  | nil => exact ⟨[], rfl, .done front⟩
  | cons mode modes ih =>
    obtain ⟨gap, tile⟩ := step_isTile mode split reached
    obtain ⟨more, rest, tiling⟩ := ih tile.split (by rw [tile.next, tile.stop])
    refine ⟨step mode here :: more, ?_, .tile tile tiling⟩
    rw [steps, lexNext_eq]
    show (steps modes (step mode here).next >>= _) = _
    rw [rest]
    rfl

/-- A tile starts and ends where two characters of the source meet. -/
theorem IsTile.boundaries {source front gap : List Char} {mode : LexMode} {one : Step}
    (tile : IsTile source front gap mode one) :
    IsBoundary source one.token.span.start ∧ IsBoundary source one.token.span.stop := by
  rw [tile.start, tile.stop]
  constructor
  · rw [tile.split, List.append_assoc]
    exact isBoundary_append (front ++ gap) _
  · rw [tile.split]
    exact isBoundary_append _ _

/-- A tile lies inside the source, its two ends in order, behind the text in front of it. -/
theorem IsTile.ordered {source front gap : List Char} {mode : LexMode} {one : Step}
    (tile : IsTile source front gap mode one) :
    byteSize front ≤ one.token.span.start ∧ one.token.span.start ≤ one.token.span.stop
      ∧ one.token.span.stop ≤ byteSize source := by
  have whole := congrArg byteSize tile.split
  have start := tile.start
  have stop := tile.stop
  simp only [byteSize_append] at whole start stop
  omega

/-- Every step of a tiling starts behind the text in front of all, and ends inside the source. -/
theorem Tiling.ordered {source front : List Char} {modes : List LexMode} {run : List Step}
    (tiling : Tiling source front modes run) :
    (∀ one ∈ run, byteSize front ≤ one.token.span.start
        ∧ one.token.span.start ≤ one.token.span.stop ∧ one.token.span.stop ≤ byteSize source)
      ∧ run.Pairwise fun one later => one.token.span.stop ≤ later.token.span.start := by
  -- Each tile starts where the one before it has stopped.
  induction tiling with
  | done front => exact ⟨List.forall_mem_nil _, .nil⟩
  | tile tile more ih =>
    obtain ⟨low, inside, high⟩ := tile.ordered
    obtain ⟨later, apart⟩ := ih
    rw [← tile.stop] at later
    constructor
    · intro one mem
      rcases List.mem_cons.mp mem with rfl | mem
      · exact ⟨low, inside, high⟩
      · obtain ⟨behind, rest⟩ := later one mem
        exact ⟨by omega, rest⟩
    · exact .cons (fun other mem => (later other mem).1) apart

/-- Outside templates every step that is not the end leaves less text. -/
theorem step_rest_lt {mode : LexMode} (outside : mode ≠ .template) {here : Cursor}
    (goesOn : (step mode here).token.kind ≠ .eof) :
    (step mode here).next.rest.length < here.rest.length := by
  obtain ⟨gap, following, cut, -, -, -, kind, -, -, -, next⟩ := step_split mode here
  -- At the end of the text the token would be that of the end.
  cases following with
  | nil =>
    rw [scan_nil, if_neg outside] at kind
    exact absurd kind goesOn
  | cons c tail =>
    have positive := (scan_cons mode c tail).2
    rw [next, cut, List.length_drop, List.length_append, List.length_cons]
    omega

/-- The steps of a tiling start and end where two characters meet. -/
theorem Tiling.boundaries {source front : List Char} {modes : List LexMode} {run : List Step}
    (tiling : Tiling source front modes run) {one : Step} (mem : one ∈ run) :
    IsBoundary source one.token.span.start ∧ IsBoundary source one.token.span.stop := by
  induction tiling with
  | done front => cases mem
  | tile tile more ih =>
    rcases List.mem_cons.mp mem with rfl | mem
    · exact tile.boundaries
    · exact ih mem

/-- A run in standard mode makes one step, and another run behind it unless that was the last. -/
theorem runStandard_succ (fuel : Nat) (here : Cursor) :
    runStandard (fuel + 1) here
      = if (step .standard here).token.kind = .eof then Run.push (step .standard here) ⟨[], [], none⟩
        else (runStandard fuel (step .standard here).next).push (step .standard here) := by
  rw [runStandard, lexNext_eq, Run.goOn]

/-- Standard mode comes to the end of the source with one token for each character at most and the
mark of the end. Nothing stops it before that. -/
theorem runStandard_ends {fuel : Nat} {here : Cursor} (enough : here.rest.length < fuel) :
    (runStandard fuel here).misread = none
      ∧ (runStandard fuel here).tokens.length ≤ here.rest.length + 1
      ∧ (runStandard fuel here).tokens.getLast?.map Token.kind = some .eof := by
  -- The fuel bounds what is left, and every step that does not end takes some of that.
  induction fuel generalizing here with
  | zero => exact absurd enough (Nat.not_lt_zero _)
  | succ fuel ih =>
    rw [runStandard_succ]
    -- The first token is the last one, or it goes in front of a shorter run.
    split
    · rename_i ends
      exact ⟨rfl, Nat.le_add_left .., congrArg some ends⟩
    · rename_i goesOn
      have outside : LexMode.standard ≠ .template := nofun
      have shorter := step_rest_lt outside goesOn
      have behind : (step .standard here).next.rest.length < fuel := by omega
      obtain ⟨read, short, last⟩ := ih behind
      refine ⟨read, ?_, ?_⟩
      · simp only [Run.push, List.length_cons]
        omega
      · obtain ⟨token, found, kind⟩ := Option.map_eq_some_iff.mp last
        simp [Run.push, List.getLast?_cons, found, kind]

/-- The lexer tiles every source in every sequence of modes, and takes no slice that is not there. In
standard mode it ends. -/
theorem lexing_tiles (source : String) (modes : List LexMode) :
    (∃ all, steps modes (.ofString source) = .ok all
        ∧ Tiling source.toList [] modes all
        ∧ (∀ one ∈ all, IsBoundary source.toList one.token.span.start
            ∧ IsBoundary source.toList one.token.span.stop
            ∧ one.token.span.start ≤ one.token.span.stop
            ∧ one.token.span.stop ≤ byteSize source.toList)
        ∧ all.Pairwise fun one later => one.token.span.stop ≤ later.token.span.start)
      ∧ (run [] source).misread = none
      ∧ (run [] source).tokens.length ≤ source.length + 1
      ∧ (run [] source).tokens.getLast?.map Token.kind = some .eof := by
  refine ⟨?_, runStandard_ends (Nat.lt_succ_self (Cursor.ofString source).rest.length)⟩
  -- Order, bounds and boundaries are read off the tiling.
  obtain ⟨all, reads, tiling⟩ := @steps_tiling source.toList [] (.ofString source) modes rfl rfl
  obtain ⟨inside, apart⟩ := tiling.ordered
  refine ⟨all, reads, tiling, fun one mem => ?_, apart⟩
  obtain ⟨starts, stops⟩ := tiling.boundaries mem
  obtain ⟨-, ordered, bounded⟩ := inside one mem
  exact ⟨starts, stops, ordered, bounded⟩

end Downlevel.Lexer
