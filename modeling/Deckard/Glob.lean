import Mathlib.Tactic

/-!
# Glob patterns

Patterns and texts are bytes. A pattern is read into tokens: `*` stands for any bytes, `?` for one
byte, brackets for the bytes of a class, and a backslash takes the next byte as it is. A template
is a text with holes that are filled with words of a code. Whether a pattern matches some filling
of a template is found by following both at once: where there is a hole, either it ends there or
one more word goes into it.
-/
namespace Deckard.Glob

/-- What stands for one byte. -/
inductive Single
  | one
  | byte (b : UInt8)
  | oneOf (negated : Bool) (ranges : List (UInt8 × UInt8))

/-- The value of a `char` in C, which is signed or not as the platform has it. -/
def value (signed : Bool) (b : UInt8) : ℤ := if signed then b.toInt8.toInt else b.toNat

/-- A range is taken in either direction. -/
def Single.admits (signed : Bool) : Single → UInt8 → Bool
  | .one, _ => true
  | .byte b, c => b == c
  | .oneOf negated ranges, c =>
      (ranges.any fun r =>
        decide (value signed r.1 ≤ value signed c ∧ value signed c ≤ value signed r.2 ∨
          value signed r.2 ≤ value signed c ∧ value signed c ≤ value signed r.1)) != negated

inductive Token
  | star
  | single (s : Single)

/-- Whether a class is being read, with what has been read of it. -/
inductive Mode
  | outside
  | inside (negated : Bool) (ranges : List (UInt8 × UInt8))

/-- A class ends at the first closing bracket that is no end of a range, or with the pattern. -/
def parse : Mode → List UInt8 → List Token
  | .outside, [] => []
  -- `*` and `?`
  | .outside, 0x2a :: pattern => .star :: parse .outside pattern
  | .outside, 0x3f :: pattern => .single .one :: parse .outside pattern
  -- `[^` and `[`
  | .outside, 0x5b :: 0x5e :: pattern => parse (.inside true []) pattern
  | .outside, 0x5b :: pattern => parse (.inside false []) pattern
  -- a backslash
  | .outside, 0x5c :: b :: pattern => .single (.byte b) :: parse .outside pattern
  | .outside, b :: pattern => .single (.byte b) :: parse .outside pattern
  | .inside negated ranges, [] => [.single (.oneOf negated ranges)]
  | .inside negated ranges, 0x5c :: b :: pattern =>
      parse (.inside negated ((b, b) :: ranges)) pattern
  -- `]`
  | .inside negated ranges, 0x5d :: pattern =>
      .single (.oneOf negated ranges) :: parse .outside pattern
  -- a range with `-`
  | .inside negated ranges, a :: 0x2d :: b :: pattern =>
      parse (.inside negated ((a, b) :: ranges)) pattern
  | .inside negated ranges, b :: pattern => parse (.inside negated ((b, b) :: ranges)) pattern

def matchTokens (signed : Bool) : List Token → List UInt8 → Bool
  | [], text => text.isEmpty
  | .star :: tokens, text => text.tails.any (matchTokens signed tokens)
  | .single s :: tokens, text =>
      match text with
      | [] => false
      | b :: rest => s.admits signed b && matchTokens signed tokens rest

/-- The pattern matches the text. -/
def globs (signed : Bool) (pattern text : List UInt8) : Bool :=
  matchTokens signed (parse .outside pattern) text

example : globs true "h[^a-e]l*\\*".toUTF8.toList "hillo*".toUTF8.toList = true := by
  decide +kernel

-- From `a` to a byte above 127 a class has the letters if the bytes are without a sign.
example : globs false [0x5b, 0x61, 0x2d, 0xc3, 0x5d] [0x62] = true ∧
    globs true [0x5b, 0x61, 0x2d, 0xc3, 0x5d] [0x62] = false := by decide

/-- Bytes without a meaning are matched by themselves. -/
def special : List UInt8 := [0x2a, 0x3f, 0x5b, 0x5c]

theorem special_low {b : UInt8} (h : b ∈ special) : b < 128 := by
  have hall : special.all (· < 128) = true := rfl
  exact of_decide_eq_true (List.all_eq_true.mp hall b h)

variable {signed : Bool}

theorem parse_plain {b : UInt8} (hb : b ∉ special) (pattern : List UInt8) :
    parse .outside (b :: pattern) = .single (.byte b) :: parse .outside pattern := by
  have hstar : b ≠ 0x2a := by rintro rfl; exact hb (by decide)
  have hone : b ≠ 0x3f := by rintro rfl; exact hb (by decide)
  have hclass : b ≠ 0x5b := by rintro rfl; exact hb (by decide)
  have hescape : b ≠ 0x5c := by rintro rfl; exact hb (by decide)
  rw [parse.eq_def]
  split <;> simp_all

/-- Plain bytes at the front of a pattern are those at the front of the text. -/
theorem globs_plain {front : List UInt8} (hfront : ∀ b ∈ front, b ∉ special)
    (pattern text : List UInt8) :
    globs signed (front ++ pattern) text = true ↔
      ∃ rest, text = front ++ rest ∧ globs signed pattern rest = true := by
  induction front generalizing text with
  | nil => simp
  | cons b front ih =>
    obtain ⟨hb, hrest⟩ := List.forall_mem_cons.mp hfront
    rw [globs, List.cons_append, parse_plain hb]
    cases text with
    | nil => simp [matchTokens]
    | cons c text =>
      simp only [matchTokens, Single.admits, Bool.and_eq_true, beq_iff_eq]
      rw [← globs, ih hrest]
      constructor
      · rintro ⟨rfl, rest, rfl, h⟩
        exact ⟨rest, rfl, h⟩
      · rintro ⟨rest, heq, h⟩
        cases heq
        exact ⟨rfl, rest, rfl, h⟩

/-- A star between plain bytes stands for any bytes. -/
theorem globs_star {front back : List UInt8} (hfront : ∀ b ∈ front, b ∉ special)
    (hback : ∀ b ∈ back, b ∉ special) (text : List UInt8) :
    globs signed (front ++ 0x2a :: back) text = true ↔
      ∃ middle, text = front ++ (middle ++ back) := by
  have hend : ∀ rest, globs signed back rest = true ↔ rest = back := by
    intro rest
    rw [← List.append_nil back, globs_plain hback]
    simp [globs, parse, matchTokens]
  have hstar : ∀ rest, globs signed (0x2a :: back) rest = true ↔ back <:+ rest := by
    intro rest
    simp only [globs, parse, matchTokens, List.any_eq_true, List.mem_tails]
    constructor
    · rintro ⟨tail, htail, h⟩
      exact (hend tail).mp h ▸ htail
    · intro h
      exact ⟨back, h, (hend back).mpr rfl⟩
  rw [globs_plain hfront]
  simp only [hstar]
  constructor
  · rintro ⟨rest, rfl, middle, rfl⟩
    exact ⟨middle, rfl⟩
  · rintro ⟨middle, rfl⟩
    exact ⟨_, rfl, middle, rfl⟩

/-! ## Templates -/

inductive Slot
  | byte (b : UInt8)
  | hole

variable {code : Set (List UInt8)} {s : Single} {tokens : List Token} {slots slots' : List Slot}
  {text : List UInt8}

/-- The text is the template with each hole filled by words of the code. -/
def Fills (code : Set (List UInt8)) : List Slot → List UInt8 → Prop
  | [], text => text = []
  | .byte b :: slots, text => ∃ rest, text = b :: rest ∧ Fills code slots rest
  | .hole :: slots, text =>
      ∃ (words : List (List UInt8)) (rest : List UInt8), text = words.flatten ++ rest ∧
        (∀ w ∈ words, w ∈ code) ∧ Fills code slots rest

/-- What may be left of a template behind a cut, which can go through a word in a hole. -/
def Leaves (code : Set (List UInt8)) (slots slots' : List Slot) : Prop :=
  slots' <:+ slots ∨ ∃ word rest back, word ++ rest ∈ code ∧ .hole :: back <:+ slots ∧
    slots' = rest.map .byte ++ .hole :: back

/-- Match one byte of a filling, and the rest as given. -/
def Advances (signed : Bool) (code : Set (List UInt8)) (s : Single) (next : List Slot → Prop) :
    List Slot → Prop
  | [] => False
  | .byte b :: slots => s.admits signed b = true ∧ next slots
  | .hole :: slots =>
      Advances signed code s next slots ∨
        ∃ b rest, b :: rest ∈ code ∧ s.admits signed b = true ∧
          next (rest.map .byte ++ .hole :: slots)

/-- Follow a pattern along a template. -/
def Fits (signed : Bool) (code : Set (List UInt8)) : List Token → List Slot → Prop
  | [], slots => ∀ slot ∈ slots, slot = .hole
  | .star :: tokens, slots => ∃ slots', Leaves code slots slots' ∧ Fits signed code tokens slots'
  | .single s :: tokens, slots => Advances signed code s (Fits signed code tokens) slots

/-- The holes may be left empty. -/
theorem fills_holes (h : ∀ slot ∈ slots, slot = .hole) : Fills code slots [] := by
  induction slots with
  | nil => rfl
  | cons slot slots ih =>
    obtain ⟨rfl, hslots⟩ := List.forall_mem_cons.mp h
    exact ⟨[], [], rfl, by simp, ih hslots⟩

theorem holes_of_fills (h : Fills code slots []) : ∀ slot ∈ slots, slot = .hole := by
  induction slots with
  | nil => simp
  | cons slot slots ih =>
    cases slot with
    | byte b =>
      obtain ⟨rest, heq, -⟩ := h
      cases heq
    | hole =>
      obtain ⟨words, rest, heq, -, hrest⟩ := h
      obtain ⟨-, rfl⟩ := List.append_eq_nil_iff.mp heq.symm
      exact List.forall_mem_cons.mpr ⟨rfl, ih hrest⟩

theorem exists_fills_append (front : List Slot) (h : Fills code slots text) :
    ∃ before, Fills code (front ++ slots) (before ++ text) := by
  induction front with
  | nil => exact ⟨[], h⟩
  | cons slot front ih =>
    obtain ⟨before, hbefore⟩ := ih
    cases slot with
    | byte b => exact ⟨b :: before, before ++ text, rfl, hbefore⟩
    | hole => exact ⟨before, [], before ++ text, rfl, by simp, hbefore⟩

theorem fills_front {front : List UInt8} :
    Fills code (front.map .byte ++ slots) text ↔
      ∃ rest, text = front ++ rest ∧ Fills code slots rest := by
  induction front generalizing text with
  | nil => simp
  | cons b front ih =>
    simp only [List.map_cons, List.cons_append, Fills, ih]
    constructor
    · rintro ⟨_, rfl, rest, rfl, h⟩
      exact ⟨rest, rfl, h⟩
    · rintro ⟨rest, rfl, h⟩
      exact ⟨front ++ rest, rfl, rest, rfl, h⟩

/-- One more word goes into a hole. -/
theorem Fills.cons_word {word : List UInt8} (hword : word ∈ code)
    (h : Fills code (.hole :: slots) text) : Fills code (.hole :: slots) (word ++ text) := by
  obtain ⟨words, rest, rfl, hwords, hrest⟩ := h
  refine ⟨word :: words, rest, ?_, List.forall_mem_cons.mpr ⟨hword, hwords⟩, hrest⟩
  rw [List.flatten_cons, List.append_assoc]

/-- A filling of what is left goes on from a filling of what is cut off. -/
theorem Leaves.exists_fills (hleaves : Leaves code slots slots') (h : Fills code slots' text) :
    ∃ before, Fills code slots (before ++ text) := by
  rcases hleaves with ⟨front, rfl⟩ | ⟨word, rest, back, hword, ⟨front, rfl⟩, rfl⟩
  · exact exists_fills_append front h
  · obtain ⟨text, rfl, hback⟩ := fills_front.mp h
    obtain ⟨before, hbefore⟩ := exists_fills_append front (hback.cons_word hword)
    exact ⟨before ++ word, by simpa using hbefore⟩

theorem Leaves.cons (h : Leaves code slots slots') (slot : Slot) :
    Leaves code (slot :: slots) slots' := by
  rcases h with h | ⟨word, rest, back, hword, hback, rfl⟩
  · exact .inl (h.trans (List.suffix_cons _ _))
  · exact .inr ⟨word, rest, back, hword, hback.trans (List.suffix_cons _ _), rfl⟩

/-- What is left of a filling of words behind a cut. -/
theorem fills_flatten_suffix {words : List (List UInt8)} {before after rest : List UInt8}
    (heq : before ++ after = words.flatten ++ rest) (hwords : ∀ w ∈ words, w ∈ code)
    (hrest : Fills code slots rest) :
    (∃ slots', Leaves code (.hole :: slots) slots' ∧ Fills code slots' after) ∨
      ∃ front, rest = front ++ after := by
  induction words generalizing before with
  | nil => exact .inr ⟨before, heq.symm⟩
  | cons word words ih =>
    obtain ⟨hword, hothers⟩ := List.forall_mem_cons.mp hwords
    rw [List.flatten_cons, List.append_assoc] at heq
    -- the cut is inside this word or behind it
    rcases List.append_eq_append_iff.mp heq with ⟨left, rfl, rfl⟩ | ⟨left, rfl, hleft⟩
    · refine .inl ⟨left.map .byte ++ .hole :: slots,
        .inr ⟨before, left, slots, hword, List.suffix_refl _, rfl⟩, fills_front.mpr ?_⟩
      exact ⟨_, rfl, words, rest, rfl, hothers, hrest⟩
    · exact ih hleft.symm hothers

/-- What is left of a filling after a cut fills what is left of the template. -/
theorem Fills.leaves {before after : List UInt8} (h : Fills code slots (before ++ after)) :
    ∃ slots', Leaves code slots slots' ∧ Fills code slots' after := by
  induction slots generalizing before with
  | nil =>
    obtain ⟨-, rfl⟩ := List.append_eq_nil_iff.mp h
    exact ⟨[], .inl (List.suffix_refl _), rfl⟩
  | cons slot slots ih =>
    cases slot with
    | byte b =>
      obtain ⟨rest, heq, hrest⟩ := h
      cases before with
      | nil => exact ⟨.byte b :: slots, .inl (List.suffix_refl _), rest, heq, hrest⟩
      | cons c before =>
        cases heq
        obtain ⟨slots', hleaves, hfills⟩ := ih hrest
        exact ⟨slots', hleaves.cons _, hfills⟩
    | hole =>
      obtain ⟨words, rest, heq, hwords, hrest⟩ := h
      rcases fills_flatten_suffix heq hwords hrest with hleft | ⟨front, rfl⟩
      · exact hleft
      · obtain ⟨slots', hleaves, hfills⟩ := ih hrest
        exact ⟨slots', hleaves.cons _, hfills⟩

/-- The first byte of a filling of a hole and what follows it comes from what follows or begins a
word. -/
theorem fills_hole_cons {b : UInt8} :
    Fills code (.hole :: slots) (b :: text) ↔
      Fills code slots (b :: text) ∨
        ∃ rest, b :: rest ∈ code ∧ Fills code (rest.map .byte ++ .hole :: slots) text := by
  constructor
  · rintro ⟨words, rest, heq, hwords, hrest⟩
    induction words with
    | nil =>
      cases heq
      exact .inl hrest
    | cons word words ih =>
      obtain ⟨hword, hothers⟩ := List.forall_mem_cons.mp hwords
      cases word with
      | nil => exact ih heq hothers
      | cons c word =>
        rw [List.flatten_cons, List.cons_append, List.cons_append, List.append_assoc] at heq
        cases heq
        exact .inr ⟨word, hword, fills_front.mpr ⟨_, rfl, words, rest, rfl, hothers, hrest⟩⟩
  · rintro (h | ⟨rest, hword, h⟩)
    · exact ⟨[], b :: text, rfl, by simp, h⟩
    · obtain ⟨text, rfl, hfills⟩ := fills_front.mp h
      exact hfills.cons_word hword

theorem advances_iff (ih : ∀ slots, Fits signed code tokens slots ↔
      ∃ text, Fills code slots text ∧ matchTokens signed tokens text = true)
    (slots : List Slot) :
    Advances signed code s (Fits signed code tokens) slots ↔
      ∃ b text, Fills code slots (b :: text) ∧ s.admits signed b = true ∧
        matchTokens signed tokens text = true := by
  induction slots with
  | nil => simp [Advances, Fills]
  | cons slot slots ihs =>
    cases slot with
    | byte b =>
      simp only [Advances, ih]
      constructor
      · rintro ⟨hb, text, hfills, hmatch⟩
        exact ⟨b, text, ⟨text, rfl, hfills⟩, hb, hmatch⟩
      · rintro ⟨c, text, ⟨rest, heq, hfills⟩, hc, hmatch⟩
        cases heq
        exact ⟨hc, text, hfills, hmatch⟩
    | hole =>
      simp only [Advances, ih, ihs, fills_hole_cons]
      constructor
      · rintro (⟨b, text, hfills, hb, hmatch⟩ | ⟨b, rest, hword, hb, text, hfills, hmatch⟩)
        · exact ⟨b, text, .inl hfills, hb, hmatch⟩
        · exact ⟨b, text, .inr ⟨rest, hword, hfills⟩, hb, hmatch⟩
      · rintro ⟨b, text, hfills | ⟨rest, hword, hfills⟩, hb, hmatch⟩
        · exact .inl ⟨b, text, hfills, hb, hmatch⟩
        · exact .inr ⟨b, rest, hword, hb, text, hfills, hmatch⟩

/-- The pattern fits the template if it matches a filling of it. -/
theorem fits_iff (tokens : List Token) (slots : List Slot) :
    Fits signed code tokens slots ↔
      ∃ text, Fills code slots text ∧ matchTokens signed tokens text = true := by
  induction tokens generalizing slots with
  | nil =>
    rw [Fits]
    constructor
    · intro h
      exact ⟨[], fills_holes h, rfl⟩
    · rintro ⟨text, hfills, hempty⟩
      rw [matchTokens, List.isEmpty_iff] at hempty
      exact holes_of_fills (hempty ▸ hfills)
  | cons token tokens ih =>
    cases token with
    | star =>
      simp only [Fits, ih, matchTokens, List.any_eq_true, List.mem_tails]
      constructor
      · rintro ⟨slots', hleaves, text, hfills, hmatch⟩
        obtain ⟨before, hbefore⟩ := hleaves.exists_fills hfills
        exact ⟨before ++ text, hbefore, text, List.suffix_append _ _, hmatch⟩
      · rintro ⟨_, hfills, text, ⟨before, rfl⟩, hmatch⟩
        obtain ⟨slots', hleaves, hfills⟩ := hfills.leaves
        exact ⟨slots', hleaves, text, hfills, hmatch⟩
    | single s =>
      rw [Fits, advances_iff ih]
      constructor
      · rintro ⟨b, text, hfills, hb, hmatch⟩
        exact ⟨b :: text, hfills, by simp [matchTokens, hb, hmatch]⟩
      · rintro ⟨text, hfills, hmatch⟩
        cases text with
        | nil => simp [matchTokens] at hmatch
        | cons b text =>
          rw [matchTokens, Bool.and_eq_true] at hmatch
          exact ⟨b, text, hfills, hmatch⟩

theorem fills_bytes {back : List UInt8} : Fills code (back.map .byte) text ↔ text = back := by
  have h : Fills code (back.map .byte ++ []) text ↔ _ := fills_front
  simpa [Fills] using h

/-- The fillings of one hole between two texts. -/
theorem fills_between {front back text : List UInt8} :
    Fills code (front.map .byte ++ .hole :: back.map .byte) text ↔
      ∃ words : List (List UInt8), (∀ w ∈ words, w ∈ code) ∧
        text = front ++ (words.flatten ++ back) := by
  rw [fills_front]
  simp only [Fills, fills_bytes]
  constructor
  · rintro ⟨_, rfl, words, _, rfl, hwords, rfl⟩
    exact ⟨words, hwords, rfl⟩
  · rintro ⟨words, hwords, rfl⟩
    exact ⟨words.flatten ++ back, rfl, words, back, rfl, hwords, rfl⟩

end Deckard.Glob
