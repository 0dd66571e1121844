import DiscreteMath.Text.Characters

/-!
# Control sequences

A terminal shows some characters of a text and takes others as orders: the control characters,
and the sequences that an escape character begins. `withoutControls` leaves the orders out. What
it leaves is shown, and a text that is shown as a whole stays as it is.
-/

namespace DiscreteMath.Text

def escapeCharacter : Char := '\x1b'

/-- Outside sequences, everything is shown but the control characters that are no spacing. -/
def isShown (c : Char) : Bool :=
  isSpacing c || (0x20 ≤ c.toNat && c.toNat != 0x7F)

/-- Where a text stands between two characters. -/
inductive ControlState where
  /-- Outside sequences. -/
  | ground
  /-- After an escape character. -/
  | escape
  /-- After an escape character and some punctuation. -/
  | intermediate
  /-- Among the parameters of a sequence that `[` introduces. -/
  | parameters
  /-- In a string that `]` introduces. A bell ends it. -/
  | command
  /-- In a string of another kind. It ends at a string terminator, the byte `9C`. -/
  | string
  deriving Repr, DecidableEq

namespace ControlState

def continued (state : ControlState) (c : Char) : ControlState :=
  let isFinal := c.toNat ≤ 0x7E
  match state with
  | ground => ground
  | escape =>
    if c == '[' then parameters
    else if c == ']' then command
    else if ['P', 'X', '^', '_'].contains c then string
    else if 0x30 ≤ c.toNat && isFinal then ground
    else if 0x20 ≤ c.toNat && isFinal then intermediate
    else escape
  | intermediate => if 0x30 ≤ c.toNat && isFinal then ground else intermediate
  | parameters => if 0x40 ≤ c.toNat && isFinal then ground else parameters
  | command => if c == '\x07' then ground else command
  | string => if (String.utf8EncodeChar c).contains 0x9C then ground else string

/-- The character is shown in this state. Line breaks and tabs cut a sequence short, but not a
string. -/
def shows (state : ControlState) (c : Char) : Bool :=
  match state with
  | ground => isShown c
  | escape | intermediate | parameters => isSpacing c && c != ' '
  | command | string => false

/-- The state after a character. An escape character always begins a sequence, and the characters
for cancelling and substituting always end one. -/
def next (state : ControlState) (c : Char) : ControlState :=
  if c == escapeCharacter then escape
  else if c == '\x18' || c == '\x1a' || state.shows c then ground
  else state.continued c

def shown : ControlState → List Char → List Char
  | _, [] => []
  | state, c :: rest =>
    if state.shows c then c :: (state.next c).shown rest else (state.next c).shown rest

theorem isShown_of_shows {state : ControlState} {c : Char} (h : state.shows c = true) :
    isShown c = true := by
  cases state <;> simp_all [shows, isShown]

theorem isShown_of_mem_shown {state : ControlState} {text : List Char} {c : Char}
    (h : c ∈ state.shown text) : isShown c = true := by
  induction text generalizing state with
  | nil => simp [shown] at h
  | cons d rest ih =>
    rw [shown] at h
    split at h
    · next hd =>
      rcases List.mem_cons.1 h with rfl | h
      · exact isShown_of_shows hd
      · exact ih h
    · exact ih h

theorem next_ground {c : Char} (h : isShown c = true) : ground.next c = ground := by
  have : c ≠ escapeCharacter := by
    rintro rfl
    revert h
    decide
  simp [next, shows, h, this]

theorem shown_ground {text : List Char} (h : ∀ c ∈ text, isShown c = true) :
    ground.shown text = text := by
  induction text with
  | nil => rfl
  | cons c rest ih =>
    have hc := h c List.mem_cons_self
    simp [shown, next_ground hc, shows, hc, ih fun d hd => h d (List.mem_cons_of_mem c hd)]

end ControlState

/-- The text without control characters and control sequences. -/
def withoutControls (text : List Char) : List Char := ControlState.ground.shown text

theorem isShown_of_mem_withoutControls {text : List Char} {c : Char}
    (h : c ∈ withoutControls text) : isShown c = true :=
  ControlState.isShown_of_mem_shown h

theorem withoutControls_of_isShown {text : List Char} (h : ∀ c ∈ text, isShown c = true) :
    withoutControls text = text :=
  ControlState.shown_ground h

end DiscreteMath.Text
