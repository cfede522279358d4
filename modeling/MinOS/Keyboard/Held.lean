/-
# MinOS.Keyboard.Held — the modifier bits against the keys actually held.

A stream of set-1 codes is what a keyboard sends when keys are pressed, repeated and released: one byte for each
of these, behind an `E0` for the keys added later, and six bytes for Pause. The keys held are followed beside the
decoder, which has one bit for the two keys of each modifier.

A press sets the bit and is always right. A release clears it, and is right if and only if the other key of the
pair is up. Pause sends the codes of the left control key and is never right. So the bits follow the keys
along a whole stream exactly when neither of the two happens in it.
-/
import MinOS.Keyboard.Decode

namespace MinOS.Keyboard

open MinOS.Input (Key Event)

/-! ## Keys and streams -/

/-- A key by its code and whether the code comes behind `E0`. With the release bit the codes 60 and 61 would
be the prefixes themselves. -/
structure PhysicalKey where
  prefixed : Bool
  code : UInt8
  valid : code < 0x80 ∧ code ≠ 0x60 ∧ code ≠ 0x61
  deriving DecidableEq

/-- What can happen at the keyboard; a typematic repeat is a press of a key that is held -/
inductive Action
  | press (key : PhysicalKey)
  | release (key : PhysicalKey)
  | pause
  deriving DecidableEq

def PhysicalKey.bytes (key : PhysicalKey) (data : UInt8) : List UInt8 :=
  if key.prefixed then [0xE0, data] else [data]

/-- The bytes sent -/
def Action.bytes : Action → List UInt8
  | .press key => key.bytes key.code
  | .release key => key.bytes (key.code ||| 0x80)
  | .pause => pauseBytes

/-- The keys held after an action -/
def Action.held (a : Action) (held : PhysicalKey → Bool) : PhysicalKey → Bool :=
  match a with
  | .press key => fun x => x = key || held x
  | .release key => fun x => x ≠ key && held x
  | .pause => held

/-- The modifiers with two keys each -/
inductive Modifier
  | shift
  | ctrl
  | alt
  deriving DecidableEq

def Modifier.bit : Modifier → UInt8
  | .shift => modShift
  | .ctrl => modCtrl
  | .alt => modAlt

def Modifier.left : Modifier → PhysicalKey
  | .shift => ⟨false, 0x2A, by decide⟩
  | .ctrl => ⟨false, 0x1D, by decide⟩
  | .alt => ⟨false, 0x38, by decide⟩

def Modifier.right : Modifier → PhysicalKey
  | .shift => ⟨false, 0x36, by decide⟩
  | .ctrl => ⟨true, 0x1D, by decide⟩
  | .alt => ⟨true, 0x38, by decide⟩

/-- One of the two keys is held. -/
def Modifier.isHeld (m : Modifier) (held : PhysicalKey → Bool) : Prop :=
  held m.left = true ∨ held m.right = true

instance (m : Modifier) (held : PhysicalKey → Bool) : Decidable (m.isHeld held) :=
  inferInstanceAs (Decidable (_ ∨ _))

/-- `bits` has the bit of each modifier exactly if one of its keys is held. -/
def Agrees (bits : UInt8) (held : PhysicalKey → Bool) : Prop :=
  ∀ m : Modifier, bits &&& m.bit ≠ 0 ↔ m.isHeld held

/-- After an action that started without a pending prefix: the decoder's bits are right, and so are those of the
events it queued for it. -/
structure Right (a : Action) (k : Decoder) (held : PhysicalKey → Bool) : Prop where
  modifiers : Agrees (feed a.bytes k).2.modifiers (a.held held)
  events : ∀ e ∈ (feed a.bytes k).1, Agrees e.modifiers (a.held held)

/-- The action is neither Pause nor the release of one key of a pair while the other one is held. -/
def Clear (a : Action) (held : PhysicalKey → Bool) : Prop :=
  match a with
  | .press _ => True
  | .release key => ∀ m : Modifier,
      (key = m.left → held m.right = false) ∧ (key = m.right → held m.left = false)
  | .pause => False

/-- The decoder after the bytes of a stream, from `keyboard_init` on -/
def decoderAfter (actions : List Action) : Decoder :=
  (feed (actions.flatMap Action.bytes) Decoder.start).2

/-- The keys held after it, none of them at `keyboard_init` -/
def heldAfter (actions : List Action) : PhysicalKey → Bool :=
  actions.foldl (fun held a => a.held held) fun _ => false

/-! ## Bytes and bits -/

theorem forall_byte {P : UInt8 → Prop} (h : ∀ n < 256, P (UInt8.ofNat n)) (b : UInt8) : P b := by
  have hb := h b.toNat b.toNat_lt
  rwa [UInt8.ofNat_toNat] at hb

/-- There are 256 bytes to try. -/
instance decidableForallByte {P : UInt8 → Prop} [DecidablePred P] : Decidable (∀ b, P b) :=
  decidable_of_iff (∀ n < 256, P (UInt8.ofNat n)) ⟨forall_byte, fun h _ _ => h _⟩

/-- What the decoder makes of a key's two bytes -/
theorem code_bytes (code : UInt8) (hvalid : code < 0x80 ∧ code ≠ 0x60 ∧ code ≠ 0x61) :
    (code ≠ 0xE0 ∧ code ≠ 0xE1 ∧ code &&& 0x7F = code ∧ code &&& 0x80 = 0) ∧
      (code ||| 0x80 ≠ 0xE0 ∧ code ||| 0x80 ≠ 0xE1 ∧ (code ||| 0x80) &&& 0x7F = code ∧
        (code ||| 0x80) &&& 0x80 ≠ 0) := by
  revert code
  decide +kernel

theorem or_bit_iff (b : UInt8) (m m' : Modifier) :
    (b ||| m.bit) &&& m'.bit ≠ 0 ↔ m' = m ∨ b &&& m'.bit ≠ 0 := by
  revert b
  cases m <;> cases m' <;> decide +kernel

theorem and_not_bit_iff (b : UInt8) (m m' : Modifier) :
    (b &&& ~~~m.bit) &&& m'.bit ≠ 0 ↔ m' ≠ m ∧ b &&& m'.bit ≠ 0 := by
  revert b
  cases m <;> cases m' <;> decide +kernel

theorem xor_caps_bit (b : UInt8) (m : Modifier) : (b ^^^ modCaps) &&& m.bit = b &&& m.bit := by
  revert b
  cases m <;> decide +kernel

/-! ## Which key belongs to which modifier -/

/-- The key is one of the two. -/
def Modifier.has (m : Modifier) (key : PhysicalKey) : Prop := key = m.left ∨ key = m.right

instance (m : Modifier) (key : PhysicalKey) : Decidable (m.has key) := inferInstanceAs (Decidable (_ ∨ _))

theorem Modifier.has_unique {m m' : Modifier} {key : PhysicalKey} (h : m.has key) (h' : m'.has key) :
    m = m' := by
  rcases h with rfl | rfl
  · revert h'
    cases m <;> cases m' <;> decide
  · revert h'
    cases m <;> cases m' <;> decide

theorem isHeld_press (m : Modifier) (key : PhysicalKey) (held : PhysicalKey → Bool) :
    m.isHeld ((Action.press key).held held) ↔ m.has key ∨ m.isHeld held := by
  simp only [Modifier.isHeld, Modifier.has, Action.held, Bool.or_eq_true, decide_eq_true_eq]
  tauto

theorem isHeld_release (m : Modifier) (key : PhysicalKey) (held : PhysicalKey → Bool) :
    m.isHeld ((Action.release key).held held) ↔
      (m.left ≠ key ∧ held m.left = true) ∨ (m.right ≠ key ∧ held m.right = true) := by
  simp [Modifier.isHeld, Action.held]

/-! ## What the decoder does with a key -/

variable {k : Decoder} {key : PhysicalKey} {data : UInt8} {m : Modifier} {held : PhysicalKey → Bool}

theorem feed_plain (data : UInt8) (k : Decoder) : feed [data] k = decode data k := by
  simp [feed, keyboardIrq]

theorem feed_prefixed (data : UInt8) (k : Decoder) :
    feed [0xE0, data] k = decode data { k with extended := 1 } := by
  simp [feed, keyboardIrq, decode]

/-- `data` is the press or the release code of `key`. -/
structure PhysicalKey.Sends (key : PhysicalKey) (data : UInt8) : Prop where
  notE0 : data ≠ 0xE0
  notE1 : data ≠ 0xE1
  code : data &&& 0x7F = key.code

theorem PhysicalKey.sends_press (key : PhysicalKey) : key.Sends key.code :=
  ⟨(code_bytes key.code key.valid).1.1, (code_bytes key.code key.valid).1.2.1,
    (code_bytes key.code key.valid).1.2.2.1⟩

theorem PhysicalKey.sends_release (key : PhysicalKey) : key.Sends (key.code ||| 0x80) :=
  ⟨(code_bytes key.code key.valid).2.1, (code_bytes key.code key.valid).2.2.1,
    (code_bytes key.code key.valid).2.2.2.1⟩

/-- The branches of the decoder, by the code -/
theorem decode_eq (hdata : key.Sends data) (k : Decoder) :
    decode data k =
      if k.extended = 0 ∧ (key.code = 0x2A ∨ key.code = 0x36) then
        modifierKey modShift (if key.code = 0x2A then .leftShift else .rightShift) (data &&& 0x80) k
      else if key.code = 0x1D then
        modifierKey modCtrl (if k.extended ≠ 0 then .rightCtrl else .leftCtrl) (data &&& 0x80) k
      else if key.code = 0x38 then
        modifierKey modAlt (if k.extended ≠ 0 then .rightAlt else .leftAlt) (data &&& 0x80) k
      else otherKey key.code (data &&& 0x80) k := by
  rw [decode, if_neg hdata.notE0, if_neg hdata.notE1]
  simp only [hdata.code]

/-- A modifier key changes its bit, and its event carries the new bits. -/
theorem feed_modifier (hk : k.extended = 0) (hdata : key.Sends data) (hkey : m.has key) :
    ∃ id, feed (key.bytes data) k =
      ([pushKeyEvent id (data &&& 0x80) (setModifier m.bit (data &&& 0x80) k.modifiers)],
        ⟨setModifier m.bit (data &&& 0x80) k.modifiers, 0⟩) := by
  have hplain := (feed_plain data k).trans (decode_eq hdata k)
  have hprefixed := (feed_prefixed data k).trans (decode_eq hdata _)
  rcases hkey with rfl | rfl
  · cases m with
    | shift => exact ⟨.leftShift, hplain.trans (by simp [Modifier.left, hk, modifierKey, Modifier.bit])⟩
    | ctrl => exact ⟨.leftCtrl, hplain.trans (by simp [Modifier.left, hk, modifierKey, Modifier.bit])⟩
    | alt => exact ⟨.leftAlt, hplain.trans (by simp [Modifier.left, hk, modifierKey, Modifier.bit])⟩
  · cases m with
    | shift => exact ⟨.rightShift, hplain.trans (by simp [Modifier.right, hk, modifierKey, Modifier.bit])⟩
    | ctrl => exact ⟨.rightCtrl, hprefixed.trans (by simp [Modifier.right, modifierKey, Modifier.bit])⟩
    | alt => exact ⟨.rightAlt, hprefixed.trans (by simp [Modifier.right, modifierKey, Modifier.bit])⟩

/-- Any other key leaves the three bits alone, and its event carries them. -/
theorem feed_other (hk : k.extended = 0) (hdata : key.Sends data) (hkey : ∀ m : Modifier, ¬ m.has key) :
    feed (key.bytes data) k =
      otherKey key.code (data &&& 0x80) ⟨k.modifiers, if key.prefixed then 1 else 0⟩ := by
  obtain ⟨pre, code, hvalid⟩ := key
  have hctrl : code ≠ 0x1D := by
    rintro rfl
    cases pre
    · exact hkey .ctrl (Or.inl rfl)
    · exact hkey .ctrl (Or.inr rfl)
  have halt : code ≠ 0x38 := by
    rintro rfl
    cases pre
    · exact hkey .alt (Or.inl rfl)
    · exact hkey .alt (Or.inr rfl)
  cases pre with
  | true =>
    refine (feed_prefixed data k).trans ((decode_eq hdata _).trans ?_)
    simp [hctrl, halt]
  | false =>
    have hshift : ¬ (code = 0x2A ∨ code = 0x36) := by
      rintro (rfl | rfl)
      · exact hkey .shift (Or.inl rfl)
      · exact hkey .shift (Or.inr rfl)
    obtain ⟨modifiers, extended⟩ := k
    obtain rfl : extended = 0 := hk
    refine (feed_plain data _).trans ((decode_eq hdata _).trans ?_)
    simp [hshift, hctrl, halt]

/-! ## One action -/

/-- No prefix is pending after a complete code. -/
theorem feed_bytes_extended (a : Action) (hk : k.extended = 0) : (feed a.bytes k).2.extended = 0 := by
  have hkey : ∀ key : PhysicalKey, ∀ data, key.Sends data → (feed (key.bytes data) k).2.extended = 0 := by
    intro key data hdata
    by_cases hmod : ∃ m : Modifier, m.has key
    · obtain ⟨m, hm⟩ := hmod
      obtain ⟨id, hfeed⟩ := feed_modifier hk hdata hm
      rw [hfeed]
    · rw [feed_other hk hdata (fun m hm => hmod ⟨m, hm⟩)]
      rfl
  cases a with
  | press key => exact hkey key _ key.sends_press
  | release key => exact hkey key _ key.sends_release
  | pause =>
    show (feed pauseBytes k).2.extended = 0
    rw [feed_pause hk]

theorem otherKey_bit (code released : UInt8) (k : Decoder) (m : Modifier) :
    (otherKey code released k).2.modifiers &&& m.bit = k.modifiers &&& m.bit := by
  simp only [otherKey]
  generalize (if k.extended ≠ 0 then extendedKey code else keyForScancode code) = id
  split
  · exact xor_caps_bit k.modifiers m
  · rfl

theorem otherKey_event {code released : UInt8} {e : Event} (he : e ∈ (otherKey code released k).1) :
    e.modifiers = k.modifiers := by
  simp only [otherKey] at he
  generalize (if k.extended ≠ 0 then extendedKey code else keyForScancode code) = id at he
  split at he
  · rw [List.mem_singleton.mp he]
  · exact absurd he List.not_mem_nil

/-- A key that is no modifier is decoded right. -/
theorem other_agrees (hk : k.extended = 0) (hdata : key.Sends data) (hkey : ∀ m : Modifier, ¬ m.has key)
    (hagrees : Agrees k.modifiers held) :
    Agrees (feed (key.bytes data) k).2.modifiers held ∧
      ∀ e ∈ (feed (key.bytes data) k).1, Agrees e.modifiers held := by
  rw [feed_other hk hdata hkey]
  constructor
  · intro m
    rw [otherKey_bit, ← hagrees m]
  · intro e he
    rw [otherKey_event he]
    exact hagrees

/-- One that is a modifier is decoded right if its new bits are. -/
theorem modifier_agrees_iff (hk : k.extended = 0) (hdata : key.Sends data) {m : Modifier} (hm : m.has key) :
    (Agrees (feed (key.bytes data) k).2.modifiers held ∧
      ∀ e ∈ (feed (key.bytes data) k).1, Agrees e.modifiers held) ↔
    Agrees (setModifier m.bit (data &&& 0x80) k.modifiers) held := by
  obtain ⟨id, hfeed⟩ := feed_modifier hk hdata hm
  rw [hfeed]
  refine ⟨fun h => h.1, fun h => ⟨h, fun e he => ?_⟩⟩
  rw [List.mem_singleton.mp he]
  exact h

/-- A press sets the bit of a modifier that is now held. -/
theorem right_press (hk : k.extended = 0) (hagrees : Agrees k.modifiers held) (key : PhysicalKey) :
    Right (.press key) k held := by
  have hpressed : key.code &&& 0x80 = 0 := (code_bytes key.code key.valid).1.2.2.2
  by_cases hmod : ∃ m : Modifier, m.has key
  · obtain ⟨m, hm⟩ := hmod
    have hbits : Agrees (k.modifiers ||| m.bit) ((Action.press key).held held) := by
      intro m'
      rw [or_bit_iff, isHeld_press, hagrees m']
      refine or_congr_left ⟨?_, fun h => Modifier.has_unique h hm⟩
      rintro rfl
      exact hm
    have hset : setModifier m.bit (key.code &&& 0x80) k.modifiers = k.modifiers ||| m.bit := by
      simp [setModifier, hpressed]
    rw [← hset] at hbits
    obtain ⟨hmods, hevents⟩ := (modifier_agrees_iff hk key.sends_press hm).mpr hbits
    exact ⟨hmods, hevents⟩
  · have hnone : ∀ m : Modifier, ¬ m.has key := fun m hm => hmod ⟨m, hm⟩
    have hheld : Agrees k.modifiers ((Action.press key).held held) := by
      intro m
      rw [isHeld_press, hagrees m]
      exact (or_iff_right (hnone m)).symm
    obtain ⟨hmods, hevents⟩ := other_agrees hk key.sends_press hnone hheld
    exact ⟨hmods, hevents⟩

/-- A bit that is cleared agrees with the keys held if and only if the other key of the pair is up. -/
theorem agrees_clear_iff {bits : UInt8} (hagrees : Agrees bits held) {m : Modifier} (hm : m.has key) :
    Agrees (bits &&& ~~~m.bit) ((Action.release key).held held) ↔ Clear (.release key) held := by
  constructor
  · intro h m'
    -- The bit is 0, so neither key of the pair may be held afterwards.
    have hnone : key = m'.left ∨ key = m'.right → ¬ m'.isHeld ((Action.release key).held held) := by
      intro hm'
      obtain rfl := Modifier.has_unique hm hm'
      rw [← h m, and_not_bit_iff]
      exact fun hne => hne.1 rfl
    constructor
    · intro hleft
      have := hnone (Or.inl hleft)
      rw [isHeld_release, not_or] at this
      have hne : m'.right ≠ key := by
        rw [hleft]
        cases m' <;> decide
      exact Bool.eq_false_iff.mpr fun hheld => this.2 ⟨hne, hheld⟩
    · intro hright
      have := hnone (Or.inr hright)
      rw [isHeld_release, not_or] at this
      have hne : m'.left ≠ key := by
        rw [hright]
        cases m' <;> decide
      exact Bool.eq_false_iff.mpr fun hheld => this.1 ⟨hne, hheld⟩
  · intro hclear m'
    rw [and_not_bit_iff, isHeld_release, hagrees m', Modifier.isHeld]
    by_cases hsame : m' = m
    · subst hsame
      have hup := hclear m'
      rcases hm with rfl | rfl
      · simp [hup.1 rfl]
      · simp [hup.2 rfl]
    · have hleft : m'.left ≠ key := fun h => hsame (Modifier.has_unique (Or.inl h.symm) hm)
      have hright : m'.right ≠ key := fun h => hsame (Modifier.has_unique (Or.inr h.symm) hm)
      simp [hsame, hleft, hright]

/-- A release clears the bit: right if and only if the other key of the pair is up. -/
theorem right_release_iff (hk : k.extended = 0) (hagrees : Agrees k.modifiers held) (key : PhysicalKey) :
    Right (.release key) k held ↔ Clear (.release key) held := by
  have hreleased : (key.code ||| 0x80) &&& 0x80 ≠ 0 := (code_bytes key.code key.valid).2.2.2.2
  by_cases hmod : ∃ m : Modifier, m.has key
  · obtain ⟨m, hm⟩ := hmod
    have hset : setModifier m.bit ((key.code ||| 0x80) &&& 0x80) k.modifiers = k.modifiers &&& ~~~m.bit := by
      simp [setModifier, hreleased]
    have hiff : _ ↔ Agrees _ ((Action.release key).held held) := modifier_agrees_iff hk key.sends_release hm
    rw [hset, agrees_clear_iff hagrees hm] at hiff
    rw [← hiff]
    exact ⟨fun h => ⟨h.modifiers, h.events⟩, fun h => ⟨h.1, h.2⟩⟩
  · have hnone : ∀ m : Modifier, ¬ m.has key := fun m hm => hmod ⟨m, hm⟩
    have hheld : Agrees k.modifiers ((Action.release key).held held) := by
      intro m
      have hleft : m.left ≠ key := fun h => hnone m (Or.inl h.symm)
      have hright : m.right ≠ key := fun h => hnone m (Or.inr h.symm)
      rw [isHeld_release, hagrees m, Modifier.isHeld]
      simp [hleft, hright]
    obtain ⟨hmods, hevents⟩ := other_agrees hk key.sends_release hnone hheld
    refine ⟨fun _ m => ⟨fun h => ?_, fun h => ?_⟩, fun _ => ⟨hmods, hevents⟩⟩
    · exact absurd (Or.inl h) (hnone m)
    · exact absurd (Or.inr h) (hnone m)

/-- Pause sets and clears the control bit: one of the two is wrong, whatever is held. -/
theorem not_right_pause (hk : k.extended = 0) : ¬ Right .pause k held := by
  intro h
  have hmods := h.modifiers
  have hevents := h.events
  change Agrees (feed pauseBytes k).2.modifiers held at hmods
  change ∀ e ∈ (feed pauseBytes k).1, Agrees e.modifiers held at hevents
  rw [feed_pause hk] at hmods hevents
  have hpressed := (hevents _ List.mem_cons_self .ctrl).mp ((or_bit_iff k.modifiers .ctrl .ctrl).mpr (Or.inl rfl))
  exact ((and_not_bit_iff _ .ctrl .ctrl).mp ((hmods .ctrl).mpr hpressed)).1 rfl

/-- **Step.** From bits that are right an action is decoded right if and only if it is clear. -/
theorem right_iff_clear (hk : k.extended = 0) (hagrees : Agrees k.modifiers held) (a : Action) :
    Right a k held ↔ Clear a held := by
  cases a with
  | press key => exact ⟨fun _ => trivial, fun _ => right_press hk hagrees key⟩
  | release key => exact right_release_iff hk hagrees key
  | pause => exact ⟨fun h => not_right_pause hk h, fun h => h.elim⟩

/-! ## Whole streams -/

theorem decoderAfter_concat (actions : List Action) (a : Action) :
    decoderAfter (actions ++ [a]) = (feed a.bytes (decoderAfter actions)).2 := by
  simp [decoderAfter, feed_append]

theorem heldAfter_concat (actions : List Action) (a : Action) :
    heldAfter (actions ++ [a]) = a.held (heldAfter actions) := by
  simp [heldAfter]

theorem decoderAfter_extended (actions : List Action) : (decoderAfter actions).extended = 0 := by
  induction actions using List.reverseRecOn with
  | nil => rfl
  | append_singleton actions a ih =>
    rw [decoderAfter_concat]
    exact feed_bytes_extended a ih

/-- Every action of the stream is decoded right, after those before it. -/
def Tracks (actions : List Action) : Prop :=
  ∀ done a rest, actions = done ++ a :: rest → Right a (decoderAfter done) (heldAfter done)

/-- Every action of the stream is clear, after those before it. -/
def AllClear (actions : List Action) : Prop :=
  ∀ done a rest, actions = done ++ a :: rest → Clear a (heldAfter done)

theorem Tracks.before {done : List Action} {a : Action} {rest : List Action}
    (h : Tracks (done ++ a :: rest)) : Tracks done := by
  intro d b r heq
  exact h d b (r ++ a :: rest) (by rw [heq]; simp)

/-- After a stream that was decoded right the bits are right. -/
theorem Tracks.agrees {actions : List Action} (h : Tracks actions) :
    Agrees (decoderAfter actions).modifiers (heldAfter actions) := by
  rcases List.eq_nil_or_concat actions with rfl | ⟨done, a, rfl⟩
  · intro m
    cases m <;> decide
  · rw [List.concat_eq_append] at *
    rw [decoderAfter_concat, heldAfter_concat]
    exact (h done a [] rfl).modifiers

/-- **Run.** A stream of clear actions is decoded right. -/
theorem tracks_of_allClear {actions : List Action} (h : AllClear actions) : Tracks actions := by
  induction actions using List.reverseRecOn with
  | nil =>
    intro done a rest heq
    simp at heq
  | append_singleton actions a ih =>
    have hbefore : Tracks actions := ih fun d b r heq => h d b (r ++ [a]) (by rw [heq]; simp)
    intro done b rest heq
    rcases List.eq_nil_or_concat rest with rfl | ⟨rest, c, rfl⟩
    · -- the last action
      obtain ⟨rfl, hlast⟩ := List.append_inj' heq rfl
      obtain rfl : a = b := by simpa using hlast
      exact (right_iff_clear (decoderAfter_extended _) hbefore.agrees a).mpr (h actions a [] rfl)
    · rw [List.concat_eq_append, ← List.cons_append, ← List.append_assoc] at heq
      obtain ⟨hactions, -⟩ := List.append_inj' heq rfl
      exact hbefore done b rest hactions

/-- **The modifier bits follow the keys held**, through the whole stream and in every event queued, if and only
if the stream has no Pause and no release of one key of a modifier while its other key is held. -/
theorem modifiers_track_iff (actions : List Action) : Tracks actions ↔ AllClear actions := by
  refine ⟨fun h done a rest heq => ?_, tracks_of_allClear⟩
  subst heq
  exact (right_iff_clear (decoderAfter_extended done) h.before.agrees a).mp (h done a rest rfl)

/-- Both shift keys go down and the left one up: the bit is 0, and the right key is held. -/
theorem shift_lost :
    ¬ Tracks [.press Modifier.shift.left, .press Modifier.shift.right, .release Modifier.shift.left] := by
  intro h
  have hright := h [.press Modifier.shift.left, .press Modifier.shift.right] _ [] rfl
  have hbit := (hright.modifiers .shift).mpr (Or.inr (by decide))
  exact absurd hbit (by decide)

end MinOS.Keyboard
