import Mathlib.Data.List.TakeWhile
import Mathlib.Tactic.SplitIfs
import ShaderBridge.Proofs.Macro.Seams

namespace ShaderBridge

/-- The bytes of a text in UTF-8. -/
def utf8 (cs : List Char) : List UInt8 :=
  cs.flatMap String.utf8EncodeChar

/-- The number of bytes of the character in UTF-8 that a byte begins. -/
def utf8Width (b : UInt8) : Nat :=
  if b.toNat < 0x80 then 1 else if b.toNat < 0xE0 then 2 else if b.toNat < 0xF0 then 3 else 4

/-- A byte as the character of the same number. -/
def charOfByte (b : UInt8) : Char :=
  Char.ofNat b.toNat

/-- The kinds of the pieces that bytes are cut into, and the numbers of bytes that they take. The
bytes are looked at one by one; only a character that is a piece of its own is taken as a whole. -/
def byteCuts : List UInt8 → List (PieceKind × Nat)
  | [] => []
  | b :: bs =>
    let (kind, tail) := Piece.first (charOfByte b) (bs.map charOfByte)
    let extra := tail.length + (utf8Width b - 1)
    (kind, 1 + extra) :: byteCuts (bs.drop extra)
termination_by bs => bs.length
decreasing_by
  rw [List.length_drop, List.length_cons]
  omega

variable {c d : Char} {cs ds : List Char} {p : Char → Bool}

theorem utf8_cons (c : Char) (cs : List Char) :
    utf8 (c :: cs) = String.utf8EncodeChar c ++ utf8 cs :=
  List.flatMap_cons

theorem length_utf8 (cs : List Char) : (utf8 cs).length = byteLength cs := by
  induction cs with
  | nil => rfl
  | cons c cs ih =>
      rw [utf8_cons, List.length_append, String.length_utf8EncodeChar, ih, byteLength_cons]

def IsAscii (c : Char) : Prop :=
  c.toNat < 0x80

instance : DecidablePred IsAscii := fun c => inferInstanceAs (Decidable (c.toNat < 0x80))

/-- A property that only characters of ASCII have. -/
def OnlyAscii (p : Char → Bool) : Prop :=
  ∀ c, p c → IsAscii c

theorem OnlyAscii.eq_false (hp : OnlyAscii p) (hc : ¬IsAscii c) : p c = false :=
  Bool.eq_false_iff.mpr (mt (hp c) hc)

theorem isAscii_of_le {m n : Char} (hn : IsAscii n) (h : (m ≤ c && c ≤ n) = true) : IsAscii c := by
  simp only [Bool.and_eq_true, decide_eq_true_eq] at h
  exact Nat.lt_of_le_of_lt h.2 hn

theorem onlyAscii_isWordStart : OnlyAscii isWordStart := by
  intro c hc
  simp only [isWordStart, Bool.or_eq_true, beq_iff_eq] at hc
  rcases hc with (hc | hc) | rfl
  · exact isAscii_of_le (by decide) hc
  · exact isAscii_of_le (by decide) hc
  · decide

theorem onlyAscii_isDigit : OnlyAscii isDigit :=
  fun _ => isAscii_of_le (by decide)

theorem onlyAscii_isWordChar : OnlyAscii isWordChar := by
  intro c hc
  rcases Bool.or_eq_true_iff.mp hc with hc | hc
  · exact onlyAscii_isWordStart c hc
  · exact onlyAscii_isDigit c hc

theorem onlyAscii_isAsciiBlank : OnlyAscii isAsciiBlank := by
  intro c hc
  simp only [isAsciiBlank, Bool.or_eq_true, beq_iff_eq] at hc
  rcases hc with (((rfl | rfl) | rfl) | rfl) | rfl <;> decide

theorem onlyAscii_mark : OnlyAscii (· == '#') := by
  intro c hc
  rw [beq_iff_eq.mp hc]
  decide

theorem onlyAscii_hexadecimal : OnlyAscii fun x => x == 'x' || x == 'X' := by
  intro c hc
  simp only [Bool.or_eq_true, beq_iff_eq] at hc
  rcases hc with rfl | rfl <;> decide

theorem utf8EncodeChar_of_isAscii (hc : IsAscii c) :
    String.utf8EncodeChar c = [UInt8.ofNat c.toNat] := by
  have hle : c.val.toNat ≤ 127 := Nat.le_of_lt_succ hc
  simp only [String.utf8EncodeChar, if_pos hle]
  rfl

theorem utf8Size_of_isAscii (hc : IsAscii c) : c.utf8Size = 1 := by
  rw [← String.length_utf8EncodeChar, utf8EncodeChar_of_isAscii hc]
  rfl

theorem toNat_ofNat_of_isAscii (hc : IsAscii c) : (UInt8.ofNat c.toNat).toNat = c.toNat :=
  UInt8.toNat_ofNat_of_lt' (Nat.lt_trans hc (by decide))

theorem utf8Width_of_isAscii (hc : IsAscii c) : utf8Width (UInt8.ofNat c.toNat) = 1 := by
  rw [utf8Width, toNat_ofNat_of_isAscii hc]
  exact if_pos hc

theorem charOfByte_of_isAscii (hc : IsAscii c) : charOfByte (UInt8.ofNat c.toNat) = c := by
  rw [charOfByte, toNat_ofNat_of_isAscii hc, Char.ofNat_toNat]

theorem charOfByte_not_isAscii {b : UInt8} (hb : 0x80 ≤ b.toNat) : ¬IsAscii (charOfByte b) := by
  have hvalid : b.toNat.isValidChar := .inl (Nat.lt_trans b.toNat_lt (by decide))
  rw [IsAscii, charOfByte, Char.ofNat, dif_pos hvalid]
  exact Nat.not_lt.mpr hb

theorem utf8EncodeChar_of_not_isAscii (hc : ¬IsAscii c) :
    ∃ b more, String.utf8EncodeChar c = b :: more ∧ 0x80 ≤ b.toNat ∧
      more.length = utf8Width b - 1 := by
  have hlower : 0x80 ≤ c.val.toNat := Nat.le_of_not_lt hc
  have hupper : c.val.toNat < 0x110000 := by
    have := c.valid
    simp only [UInt32.isValidChar, Nat.isValidChar] at this
    omega
  have hbyte {n : Nat} (hn : n < 0x100) : (UInt8.ofNat n).toNat = n := UInt8.toNat_ofNat_of_lt' hn
  unfold String.utf8EncodeChar utf8Width
  generalize c.val.toNat = v at *
  dsimp only
  rw [if_neg (by omega)]
  split
  · refine ⟨_, _, rfl, ?_⟩
    rw [hbyte (by omega), if_neg (by omega), if_pos (by omega)]
    exact ⟨by omega, rfl⟩
  split
  · refine ⟨_, _, rfl, ?_⟩
    rw [hbyte (by omega), if_neg (by omega), if_neg (by omega), if_pos (by omega)]
    exact ⟨by omega, rfl⟩
  · refine ⟨_, _, rfl, ?_⟩
    rw [hbyte (by omega), if_neg (by omega), if_neg (by omega), if_neg (by omega)]
    exact ⟨by omega, rfl⟩

theorem beq_eq_false_of_not_isAscii (hc : ¬IsAscii c) (hd : IsAscii d) : (c == d) = false :=
  beq_eq_false_iff_ne.mpr fun heq => hc (heq ▸ hd)

theorem numberTail_of_not_isAscii (hc : ¬IsAscii c) (hexadecimal : Bool) (last : Char)
    (cs : List Char) : Piece.numberTail hexadecimal last (c :: cs) = [] := by
  have hne {d : Char} (hd : IsAscii d) : (c == d) = false := beq_eq_false_of_not_isAscii hc hd
  have hpoint : (c == '.') = false := hne (by decide)
  have hplus : (c == '+') = false := hne (by decide)
  have hminus : (c == '-') = false := hne (by decide)
  rw [Piece.numberTail, onlyAscii_isWordChar.eq_false hc, hpoint, hplus, hminus]
  rfl

theorem first_of_not_isAscii (hc : ¬IsAscii c) (cs : List Char) :
    Piece.first c cs = (.mark, []) := by
  have hpoint : (c == '.') = false := beq_eq_false_of_not_isAscii hc (by decide)
  have hmark : (c == '#') = false := beq_eq_false_of_not_isAscii hc (by decide)
  unfold Piece.first
  rw [onlyAscii_isWordStart.eq_false hc, onlyAscii_isDigit.eq_false hc, hpoint,
    onlyAscii_isAsciiBlank.eq_false hc, hmark]
  rfl

theorem isAscii_of_mem_numberTail {hexadecimal : Bool} {last : Char} :
    ∀ d ∈ Piece.numberTail hexadecimal last cs, IsAscii d := by
  induction cs generalizing last with
  | nil => exact List.forall_mem_nil _
  | cons c cs ih =>
      by_cases hc : IsAscii c
      · rw [Piece.numberTail]
        split
        · exact List.forall_mem_cons.mpr ⟨hc, ih⟩
        · exact List.forall_mem_nil _
      · rw [numberTail_of_not_isAscii hc]
        exact List.forall_mem_nil _

theorem isAscii_of_mem_first (c : Char) (cs : List Char) :
    ∀ d ∈ (Piece.first c cs).2, IsAscii d := by
  have htake {p : Char → Bool} (hp : OnlyAscii p) : ∀ d ∈ cs.takeWhile p, IsAscii d :=
    fun d hd => hp d (List.mem_takeWhile_imp hd)
  unfold Piece.first
  split_ifs
  · exact htake onlyAscii_isWordChar
  · exact isAscii_of_mem_numberTail
  · exact htake onlyAscii_isAsciiBlank
  · simp only [List.mem_singleton, forall_eq]
    decide
  · exact List.forall_mem_nil _

/-- Two texts are the same, or up to characters that are both not of ASCII. -/
inductive AlikeInAscii : List Char → List Char → Prop where
  | nil : AlikeInAscii [] []
  | ascii {c : Char} {cs ds : List Char} : IsAscii c → AlikeInAscii cs ds →
      AlikeInAscii (c :: cs) (c :: ds)
  | other {c d : Char} {cs ds : List Char} : ¬IsAscii c → ¬IsAscii d →
      AlikeInAscii (c :: cs) (d :: ds)

theorem alikeInAscii_utf8 (cs : List Char) : AlikeInAscii cs ((utf8 cs).map charOfByte) := by
  induction cs with
  | nil => exact .nil
  | cons c cs ih =>
      rw [utf8_cons]
      by_cases hc : IsAscii c
      · rw [utf8EncodeChar_of_isAscii hc, List.singleton_append, List.map_cons,
          charOfByte_of_isAscii hc]
        exact .ascii hc ih
      · obtain ⟨b, more, hbytes, hb, -⟩ := utf8EncodeChar_of_not_isAscii hc
        rw [hbytes, List.cons_append, List.map_cons]
        exact .other hc (charOfByte_not_isAscii hb)

namespace AlikeInAscii

variable (h : AlikeInAscii cs ds)

include h

theorem takeWhile_eq (hp : OnlyAscii p) : ds.takeWhile p = cs.takeWhile p := by
  induction h with
  | nil => rfl
  | ascii _ _ ih => rw [List.takeWhile_cons, List.takeWhile_cons, ih]
  | other hc hd =>
      rw [List.takeWhile_cons_of_neg (mt (hp _) hc), List.takeWhile_cons_of_neg (mt (hp _) hd)]

theorem any_head?_eq (hp : OnlyAscii p) : ds.head?.any p = cs.head?.any p := by
  cases h with
  | nil => rfl
  | ascii => rfl
  | other hc hd => simp only [List.head?_cons, Option.any_some, hp.eq_false hc, hp.eq_false hd]

theorem numberTail_eq (hexadecimal : Bool) (last : Char) :
    Piece.numberTail hexadecimal last ds = Piece.numberTail hexadecimal last cs := by
  induction h generalizing last with
  | nil => rfl
  | ascii _ _ ih => rw [Piece.numberTail, Piece.numberTail, ih]
  | other hc hd => rw [numberTail_of_not_isAscii hc, numberTail_of_not_isAscii hd]

theorem first_eq (c : Char) : Piece.first c ds = Piece.first c cs := by
  have hhead (l : List Char) : (l.head? == some '#') = l.head?.any (· == '#') := by
    cases l <;> rfl
  unfold Piece.first
  simp only [hhead, h.any_head?_eq onlyAscii_mark, h.any_head?_eq onlyAscii_isDigit,
    h.any_head?_eq onlyAscii_hexadecimal, h.takeWhile_eq onlyAscii_isWordChar,
    h.takeWhile_eq onlyAscii_isAsciiBlank, h.numberTail_eq]

end AlikeInAscii

theorem utf8_append (cs ds : List Char) : utf8 (cs ++ ds) = utf8 cs ++ utf8 ds :=
  List.flatMap_append

theorem byteLength_of_isAscii (hcs : ∀ c ∈ cs, IsAscii c) : byteLength cs = cs.length := by
  induction cs with
  | nil => rfl
  | cons c cs ih =>
      obtain ⟨hc, hcs⟩ := List.forall_mem_cons.mp hcs
      rw [byteLength_cons, utf8Size_of_isAscii hc, ih hcs, List.length_cons, Nat.add_comm]

theorem drop_utf8_append (cs ds : List Char) :
    (utf8 (cs ++ ds)).drop (byteLength cs) = utf8 ds := by
  rw [utf8_append, ← length_utf8, List.drop_left]

theorem byteCuts_cons (b : UInt8) (bs : List UInt8) {kind : PieceKind} {tail : List Char}
    (h : Piece.first (charOfByte b) (bs.map charOfByte) = (kind, tail)) :
    byteCuts (b :: bs) = (kind, 1 + (tail.length + (utf8Width b - 1))) ::
      byteCuts (bs.drop (tail.length + (utf8Width b - 1))) := by
  rw [byteCuts, h]

/-- Cutting a text byte by byte gives its pieces. -/
theorem byteCuts_utf8 (text : List Char) :
    byteCuts (utf8 text) = (pieces text).map fun p => (p.kind, byteLength p.text) := by
  induction text using pieces.induct with
  | case1 =>
      rw [pieces_nil, utf8, List.flatMap_nil, byteCuts, List.map_nil]
  | case2 c cs kind tail h ih =>
      obtain ⟨rest, rfl⟩ : tail <+: cs := by simpa [h] using Piece.first_prefix c cs
      rw [List.drop_left] at ih
      rw [pieces_cons, h, List.drop_left, List.map_cons, ← ih, byteLength_cons]
      by_cases hc : IsAscii c
      · have hfirst : Piece.first (charOfByte (UInt8.ofNat c.toNat))
            ((utf8 (tail ++ rest)).map charOfByte) = (kind, tail) := by
          rw [charOfByte_of_isAscii hc, (alikeInAscii_utf8 _).first_eq, h]
        have htail : byteLength tail = tail.length :=
          byteLength_of_isAscii (by simpa [h] using isAscii_of_mem_first c (tail ++ rest))
        rw [utf8_cons, utf8EncodeChar_of_isAscii hc, List.singleton_append,
          byteCuts_cons _ _ hfirst, utf8Width_of_isAscii hc, utf8Size_of_isAscii hc,
          Nat.sub_self, Nat.add_zero, ← htail,
          drop_utf8_append]
      · cases (first_of_not_isAscii hc (tail ++ rest)).symm.trans h
        obtain ⟨b, more, hbytes, hb, hmore⟩ := utf8EncodeChar_of_not_isAscii hc
        have hsize : c.utf8Size = 1 + more.length := by
          rw [← String.length_utf8EncodeChar, hbytes, List.length_cons, Nat.add_comm]
        rw [utf8_cons, hbytes, List.cons_append,
          byteCuts_cons _ _ (first_of_not_isAscii (charOfByte_not_isAscii hb) _), ← hmore, hsize,
          List.length_nil, Nat.zero_add, List.drop_left, List.nil_append, byteLength_nil,
          Nat.add_zero]

end ShaderBridge
