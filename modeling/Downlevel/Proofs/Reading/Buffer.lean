import Downlevel.Parser.Reader
import Downlevel.Proofs.Lexing.Steps

/-! The buffer of the reader holds what the lexer gives behind the tokens that were taken, whatever
was looked at before and however often the reader was set back. -/

namespace Downlevel.Parser

/-! ### What the small parsers do at a place inside the buffer -/

variable {reader : Reader}

/-- Asking for the reader changes nothing. -/
theorem get_run : (get : Parser Reader) reader = .ok reader reader :=
  rfl

/-- A reader inside its buffer can go on. -/
theorem reading_eq (inside : reader.next ≤ reader.buffer.size) :
    reading reader = .ok reader reader := by
  simp only [reading, Bind.bind, EStateM.bind, get_run, if_neg (Nat.not_lt.mpr inside)]
  rfl

/-- A reader outside of its buffer cannot. -/
theorem reading_broken (outside : reader.buffer.size < reader.next) :
    reading reader = .error .broken reader := by
  simp only [reading, Bind.bind, EStateM.bind, get_run, if_pos outside]
  rfl

/-- What is remembered of a place is how far the reader is, and how much it has reported. -/
theorem checkpoint_run :
    checkpoint reader = .ok ⟨reader.next, reader.reports.length⟩ reader :=
  rfl

/-- Going back changes nothing else. -/
theorem restore_run (saved : Checkpoint) : restore saved reader = .ok () { reader with
    next := saved.next, reports := reader.reports.take saved.reports } :=
  rfl

/-- Looking gives the token that is read, and leaves the reader that it was read with. -/
theorem peekIn_eq (inside : reader.next ≤ reader.buffer.size) {mode : LexMode} {token : Token}
    {later : Reader} (looks : reader.look mode = .ok (token, later)) :
    peekIn mode reader = .ok token later := by
  simp only [peekIn, Bind.bind, EStateM.bind, reading_eq inside, looks]
  rfl

/-- Taking is looking, and then counting the token in. -/
theorem takeIn_eq (inside : reader.next ≤ reader.buffer.size) {mode : LexMode} {token : Token}
    {later : Reader} (looks : reader.look mode = .ok (token, later)) :
    takeIn mode reader = .ok token { later with next := later.next + 1 } := by
  simp only [takeIn, Bind.bind, EStateM.bind, peekIn_eq inside looks]
  rfl

/-- The end of the last token is found in the buffer. -/
theorem lastEnd_eq (inside : reader.next ≤ reader.buffer.size) :
    lastEnd reader = .ok reader.lastEnd reader := by
  simp only [lastEnd, Bind.bind, EStateM.bind, reading_eq inside]
  rfl

/-- Skipping comments moves the mark to the last token. -/
theorem skipComments_eq (inside : reader.next ≤ reader.buffer.size) :
    skipComments reader = .ok () { reader with commentsUpTo := reader.lastEnd } := by
  simp only [skipComments, Bind.bind, EStateM.bind, lastEnd_eq inside]
  rfl

end Downlevel.Parser

namespace Downlevel

namespace Reader

open Lexer Text

/-- The start of the source. -/
def start (reader : Reader) : Cursor :=
  ⟨0, reader.source⟩

/-- The place behind so many tokens of a buffer, found by reading them again. -/
def placeBehind (source : List Char) (buffer : Array Buffered) : (count : Nat) → Cursor
  | 0 => ⟨0, source⟩
  | count + 1 =>
    match buffer[count]? with
    | some found => (step found.mode (placeBehind source buffer count)).next
    | none => ⟨0, source⟩

/-- The place behind so many tokens of the buffer. -/
def cursor (reader : Reader) (count : Nat) : Cursor :=
  placeBehind reader.source reader.buffer count

/-- The place behind the tokens that were taken. -/
def place (reader : Reader) : Cursor :=
  reader.cursor reader.next

/-- What the buffer holds of a token. -/
def lexed (mode : LexMode) (here : Cursor) : Buffered :=
  ⟨(step mode here).token, mode, mode, here, step mode here, lexNext_eq mode here, rfl⟩

/-- Every token of the buffer is the one at the place behind the tokens before it, in the mode it was
read in, and the tokens that were taken are among them. The lexer stands behind all of them. -/
structure Sound (reader : Reader) : Prop where
  inside : reader.next ≤ reader.buffer.size
  entries : ∀ index found, reader.buffer[index]? = some found →
    found = lexed found.mode (reader.cursor index)
  position : reader.lexer = reader.cursor reader.buffer.size
  /-- Loops may go round once for each character and once more. -/
  limited : reader.start.left < reader.limit

/-- A reader that went on from another: what was taken and reported there still is. -/
structure Keeps (base reader : Reader) : Prop where
  sound : reader.Sound
  source : reader.source = base.source
  limit : reader.limit = base.limit
  next : base.next ≤ reader.next
  taken : ∀ index < base.next, reader.buffer[index]? = base.buffer[index]?
  reports : base.reports <+: reader.reports

/-- A reader at the start of a source has taken nothing. -/
theorem sound_ofString (source : String) : (ofString source).Sound where
  inside := Nat.le_refl 0
  entries := fun _ _ found => by simp [ofString] at found
  position := rfl
  limited := by
    -- The limit leaves room for the mark of the end.
    show source.toList.length < source.toList.length + 2
    omega

/-- What is noted besides the tokens does not matter. -/
theorem Sound.remarked {reader : Reader} (sound : reader.Sound) {reports : List Report}
    {comments : List LegalComment} {commentsUpTo : Nat} :
    Sound { reader with reports, comments, commentsUpTo } :=
  ⟨sound.inside, sound.entries, sound.position, sound.limited⟩

section Cursors

variable {base reader : Reader}

/-- The place behind a token is where reading it again comes to. -/
theorem cursor_succ {count : Nat} {found : Buffered} (some : reader.buffer[count]? = some found) :
    reader.cursor (count + 1) = (step found.mode (reader.cursor count)).next := by
  rw [cursor, placeBehind, some]
  rfl

/-- A place depends on the tokens in front of it only. -/
theorem cursor_congr {count : Nat} (source : reader.source = base.source)
    (same : ∀ index < count, reader.buffer[index]? = base.buffer[index]?) :
    reader.cursor count = base.cursor count := by
  simp only [cursor, source]
  -- By induction on the tokens in front: the last of them is the same, and stands at the same place.
  induction count with
  | zero => rfl
  | succ count ih =>
    rw [placeBehind, placeBehind, same count (Nat.lt_succ_self count),
      ih fun index less => same index (Nat.lt_succ_of_lt less)]

/-- A place is what is left of the source behind some of its characters. -/
theorem cursor_reached (reader : Reader) (count : Nat) :
    ∃ front, reader.source = front ++ (reader.cursor count).rest
      ∧ (reader.cursor count).offset = byteSize front := by
  unfold cursor
  -- By induction on the tokens in front, each of which is a tile behind the others.
  induction count with
  | zero => exact ⟨[], rfl, rfl⟩
  | succ count ih =>
    rw [placeBehind]
    split
    · rename_i found _
      obtain ⟨front, split, reached⟩ := ih
      obtain ⟨gap, tile⟩ := step_isTile found.mode split reached
      exact ⟨_, tile.split, tile.next.trans tile.stop⟩
    · exact ⟨[], rfl, rfl⟩

/-- No place is in front of the start. -/
theorem cursor_left_le (reader : Reader) (count : Nat) :
    (reader.cursor count).left ≤ reader.start.left := by
  obtain ⟨front, split, -⟩ := reader.cursor_reached count
  show _ ≤ reader.source.length
  rw [split, List.length_append]
  exact Nat.le_add_left ..

/-- The lexer can be set to where any of the tokens ends. -/
theorem setLexer_cursor (reader : Reader) (count : Nat) :
    reader.setLexer (reader.cursor count).offset
      = .ok { reader with lexer := reader.cursor count } := by
  obtain ⟨front, split, reached⟩ := reader.cursor_reached count
  have cut : dropBytes (reader.cursor count).offset reader.source
      = .ok (reader.cursor count).rest := by
    rw [reached, split, dropBytes_append]
  rw [setLexer, cut]
  rfl

/-- A loop can go round once for each character that is left, and once more. -/
theorem Sound.place_left_lt (sound : reader.Sound) : reader.place.left < reader.limit :=
  Nat.lt_of_le_of_lt (reader.cursor_left_le reader.next) sound.limited

end Cursors

namespace Keeps

variable {base middle reader : Reader}

/-- Every sound reader goes on from itself. -/
theorem refl (sound : reader.Sound) : Keeps reader reader :=
  ⟨sound, rfl, rfl, Nat.le_refl _, fun _ _ => rfl, List.prefix_refl _⟩

/-- Going on twice is going on. -/
theorem trans (first : Keeps base middle) (second : Keeps middle reader) : Keeps base reader where
  sound := second.sound
  source := second.source.trans first.source
  limit := second.limit.trans first.limit
  next := Nat.le_trans first.next second.next
  taken index small :=
    (second.taken index (Nat.lt_of_lt_of_le small first.next)).trans (first.taken index small)
  reports := first.reports.trans second.reports

/-- The place of the base is still where it was. -/
theorem cursor_next (keeps : Keeps base reader) : reader.cursor base.next = base.place :=
  cursor_congr keeps.source keeps.taken

end Keeps

section Looking

variable {reader : Reader}

/-- Forgetting tokens sets the lexer to where the last of those that are left ends. -/
theorem Sound.resetTo (sound : reader.Sound) {count : Nat} (inside : count ≤ reader.buffer.size) :
    reader.resetTo count = .ok { reader with
      buffer := reader.buffer.take count
      next := count
      lexer := reader.cursor count } := by
  let shorter : Reader := { reader with buffer := reader.buffer.take count, next := count }
  have kept (index : Nat) (less : index < count) :
      shorter.buffer[index]? = reader.buffer[index]? := by
    simp [shorter, less, Nat.lt_of_lt_of_le less inside]
  have same : shorter.cursor count = reader.cursor count := cursor_congr rfl kept
  -- The last token ends at its place, and without one that is the start.
  have stop : ((shorter.buffer.back?.map (·.token.span.stop)).getD 0)
      = (shorter.cursor count).offset := by
    cases count with
    | zero => simp [shorter, cursor, placeBehind]
    | succ count =>
      have last : reader.buffer[count]? = some reader.buffer[count] :=
        Array.getElem?_eq_getElem inside
      have size : shorter.buffer.size = count + 1 := by simpa [shorter] using inside
      have back : shorter.buffer.back? = some reader.buffer[count] := by
        rw [Array.back?, size, Nat.add_sub_cancel, kept count (Nat.lt_succ_self count), last]
      rw [back, same, cursor_succ last, Option.map_some, Option.getD_some]
      exact congrArg (·.token.span.stop) (sound.entries count _ last)
  show shorter.setLexer _ = _
  rw [stop, setLexer_cursor, same]

/-- The reader behind one more token of a mode. -/
def grown (reader : Reader) (mode : LexMode) : Reader :=
  let one := step mode reader.lexer
  { reader with
    lexer := one.next
    buffer := reader.buffer.push (lexed mode reader.lexer)
    comments := one.comments.foldl (fun found comment => recordComment comment found)
      reader.comments }

/-- Reading one more token takes it from where the lexer stands, and leaves the lexer behind it. -/
theorem lexMore_eq (reader : Reader) (mode : LexMode) :
    reader.lexMore mode = .ok ((step mode reader.lexer).token, reader.grown mode) := by
  unfold lexMore
  split
  · rename_i misread read
    rw [lexNext_eq] at read
    cases read
  · rename_i one read
    rw [lexNext_eq] at read
    cases read
    rfl

/-- What a buffer holds after it has grown is what it held, and the new token. -/
theorem grown_entry {mode : LexMode} (index : Nat) :
    (reader.grown mode).buffer[index]?
      = if index = reader.buffer.size then some (lexed mode reader.lexer) else reader.buffer[index]? :=
  Array.getElem?_push

/-- A reader whose buffer ends with what was taken reads the next token where it stands. -/
theorem Sound.grown (sound : reader.Sound) (ends : reader.buffer.size = reader.next)
    (mode : LexMode) :
    Keeps reader (reader.grown mode)
      ∧ (reader.grown mode).buffer[reader.next]? = some (lexed mode reader.place) := by
  have here : reader.lexer = reader.place := by rw [sound.position, ends, place]
  have size : (reader.grown mode).buffer.size = reader.next + 1 := by
    rw [Reader.grown, Array.size_push, ends]
  have last : (reader.grown mode).buffer[reader.next]? = some (lexed mode reader.place) := by
    rw [grown_entry, if_pos ends.symm, here]
  have taken (index : Nat) (small : index < reader.next) :
      (reader.grown mode).buffer[index]? = reader.buffer[index]? := by
    rw [grown_entry, if_neg (ends ▸ Nat.ne_of_lt small)]
  have places {count : Nat} (small : count ≤ reader.next) :
      (reader.grown mode).cursor count = reader.cursor count :=
    cursor_congr rfl fun index less => taken index (Nat.lt_of_lt_of_le less small)
  have entries (index : Nat) (found : Buffered)
      (some : (reader.grown mode).buffer[index]? = some found) :
      found = lexed found.mode ((reader.grown mode).cursor index) := by
    have bound := size ▸ (Array.getElem?_eq_some_iff.mp some).1
    rw [places (Nat.le_of_lt_succ bound)]
    -- A token in front is what it was, and the last one is the new one.
    rcases Nat.lt_or_eq_of_le (Nat.le_of_lt_succ bound) with small | rfl
    · exact sound.entries index found ((taken index small).symm.trans some)
    · cases last.symm.trans some
      rfl
  have position : (step mode reader.lexer).next
      = (reader.grown mode).cursor (reader.grown mode).buffer.size := by
    rw [size, cursor_succ last, places (Nat.le_refl _), here]
    rfl
  exact ⟨⟨⟨size ▸ Nat.le_succ _, entries, position, sound.limited⟩, rfl, rfl, Nat.le_refl _, taken,
    List.prefix_refl _⟩, last⟩

/-- A reader that has forgotten all tokens ahead. -/
theorem Sound.shortened (sound : reader.Sound) :
    Keeps reader { reader with
      buffer := reader.buffer.take reader.next
      lexer := reader.cursor reader.next } := by
  have size : (reader.buffer.take reader.next).size = reader.next := by simpa using sound.inside
  have taken (index : Nat) (small : index < reader.next) :
      (reader.buffer.take reader.next)[index]? = reader.buffer[index]? := by
    simp [small, Nat.lt_of_lt_of_le small sound.inside]
  have places {count : Nat} (small : count ≤ reader.next) :
      placeBehind reader.source (reader.buffer.take reader.next) count = reader.cursor count :=
    @cursor_congr reader { reader with buffer := reader.buffer.take reader.next } count rfl
      fun index less => taken index (Nat.lt_of_lt_of_le less small)
  refine ⟨⟨Nat.le_of_eq size.symm, fun index found some => ?_, ?_, sound.limited⟩, rfl, rfl,
    Nat.le_refl _, taken, List.prefix_refl _⟩
  · have small : index < reader.next := size ▸ (Array.getElem?_eq_some_iff.mp some).1
    have entry := sound.entries index found ((taken index small).symm.trans some)
    rw [← places (Nat.le_of_lt small)] at entry
    exact entry
  · show reader.cursor reader.next = placeBehind _ _ (reader.buffer.take reader.next).size
    rw [size, places (Nat.le_refl _)]

/-- Looking at a token gives what the lexer gives at the place, in the mode that is asked for and
whatever the buffer held. The token is in the buffer then, where it can be taken. -/
theorem Sound.look (sound : reader.Sound) (mode : LexMode) :
    ∃ later, reader.look mode = .ok ((step mode reader.place).token, later)
      ∧ Keeps reader later ∧ later.next = reader.next ∧ later.reports = reader.reports
      ∧ later.buffer[reader.next]? = some (lexed mode reader.place)
      ∧ ((step mode reader.place).comments = [] → later.comments = reader.comments) := by
  -- A buffer that ends with what was taken gets the token at its end.
  have reads {shorter : Reader} (keeps : Keeps reader shorter) (next : shorter.next = reader.next)
      (reports : shorter.reports = reader.reports) (comments : shorter.comments = reader.comments)
      (ends : shorter.buffer.size = shorter.next) (looks : reader.look mode = shorter.lexMore mode) :
      ∃ later, reader.look mode = .ok ((step mode reader.place).token, later)
        ∧ Keeps reader later ∧ later.next = reader.next ∧ later.reports = reader.reports
        ∧ later.buffer[reader.next]? = some (lexed mode reader.place)
        ∧ ((step mode reader.place).comments = [] → later.comments = reader.comments) := by
    have place : shorter.place = reader.place := by
      rw [Reader.place, next]
      exact keeps.cursor_next
    have here : shorter.lexer = reader.place := by
      rw [keeps.sound.position, ends]
      exact place
    obtain ⟨grows, last⟩ := keeps.sound.grown ends mode
    rw [next, place] at last
    rw [lexMore_eq, here] at looks
    refine ⟨_, looks, keeps.trans grows, next, reports, last, fun none => ?_⟩
    rw [Reader.grown, here, none]
    exact comments
  cases found : reader.buffer[reader.next]? with
  | none =>
    have ends : reader.buffer.size = reader.next :=
      Nat.le_antisymm (Array.getElem?_eq_none_iff.mp found) sound.inside
    refine reads (.refl sound) rfl rfl rfl ends ?_
    simp only [Reader.look, inMode, found, Bind.bind, Except.bind]
  | some ahead =>
    by_cases read : ahead.mode = mode
    · -- The token was read in this mode already.
      have entry := sound.entries reader.next ahead found
      rw [read] at entry
      have token : ahead.token = (step mode reader.place).token := congrArg Buffered.token entry
      refine ⟨reader, ?_, .refl sound, rfl, rfl, found.trans (congrArg some entry), fun _ => rfl⟩
      simp only [Reader.look, inMode, found, read, if_true, Bind.bind, Except.bind, token]
      rfl
    · -- It was read in another mode, and is forgotten with all that came behind it.
      have size : (reader.buffer.take reader.next).size = reader.next := by
        simpa using sound.inside
      refine reads sound.shortened rfl rfl rfl size ?_
      have none : (reader.buffer.take reader.next)[reader.next]? = none :=
        Array.getElem?_eq_none (Nat.le_of_eq size)
      simp only [Reader.look, inMode, found, if_neg read, sound.resetTo sound.inside, Bind.bind,
        Except.bind, none]

/-- Taking a token goes to the place behind it. -/
theorem Sound.take (sound : reader.Sound) (mode : LexMode) :
    ∃ later, reader.look mode = .ok ((step mode reader.place).token, later)
      ∧ Keeps reader { later with next := later.next + 1 }
      ∧ ({ later with next := later.next + 1 } : Reader).place = (step mode reader.place).next
      ∧ later.reports = reader.reports := by
  obtain ⟨later, looks, keeps, next, reports, ahead, -⟩ := sound.look mode
  have bound := (Array.getElem?_eq_some_iff.mp ahead).1
  have there : later.cursor reader.next = reader.place := keeps.cursor_next
  have front : reader.next ≤ later.next + 1 := Nat.le_succ_of_le (Nat.le_of_eq next.symm)
  -- The last token taken is the one that was looked at.
  have behind : later.cursor (later.next + 1) = (step mode reader.place).next := by
    rw [next, cursor_succ ahead, there]
    rfl
  exact ⟨later, looks, ⟨⟨next ▸ bound, keeps.sound.entries, keeps.sound.position,
    keeps.sound.limited⟩, keeps.source, keeps.limit, front, keeps.taken, keeps.reports⟩, behind,
    reports⟩

/-- A reader that is set back to its base stands where the base does, with the same reports. -/
theorem Keeps.back {base : Reader} (keeps : Keeps base reader) :
    Keeps base { reader with next := base.next, reports := reader.reports.take base.reports.length }
      ∧ ({ reader with next := base.next, reports := reader.reports.take base.reports.length }
          : Reader).place = base.place
      ∧ reader.reports.take base.reports.length = base.reports := by
  have reports := (List.prefix_iff_eq_take.mp keeps.reports).symm
  have inside := Nat.le_trans keeps.next keeps.sound.inside
  have kept : base.reports <+: reader.reports.take base.reports.length :=
    ⟨[], (List.append_nil _).trans reports.symm⟩
  exact ⟨⟨⟨inside, keeps.sound.entries, keeps.sound.position, keeps.sound.limited⟩, keeps.source,
    keeps.limit, Nat.le_refl _, keeps.taken, kept⟩, keeps.cursor_next, reports⟩

end Looking

end Reader

end Downlevel
