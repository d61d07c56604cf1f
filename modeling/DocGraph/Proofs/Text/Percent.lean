import DocGraph.Codec.Reference
import Mathlib.Data.List.Basic

/-!
# Percent-encoding and back

A percent-encoded text decodes to the text that it was made of (`decode?_encode`).
It is written byte by byte (`toList_encode`), and it holds unreserved characters,
percent signs and hexadecimal digits only (`isEncoded_of_mem_encode`), so none that
separates the parts of an IRI, and none that a text in quotes would need an escape
for.
-/

namespace DocGraph.Text.Percent

theorem hexValue?_hexDigit : ∀ n < 16, hexValue? (hexDigit n) = some n := by
  decide

theorem byte?_escape (b : UInt8) :
    byte? (hexDigit (b.toNat / 16)) (hexDigit (b.toNat % 16)) = some b := by
  have hb : b.toNat < 256 := b.toNat_lt
  have hval : 16 * (b.toNat / 16) + b.toNat % 16 = b.toNat := by omega
  rw [byte?, hexValue?_hexDigit _ (by omega), hexValue?_hexDigit _ (by omega)]
  simp only [Option.bind_eq_bind, Option.bind_some, Option.pure_def, hval, UInt8.ofNat_toNat]

theorem bytes_escape (b : UInt8) (rest : List Char) :
    bytes (escape b ++ rest) = b :: bytes rest := by
  simp only [escape, List.cons_append, List.nil_append, bytes, byte?_escape]

theorem bytes_flatMap_escape (bs : List UInt8) (rest : List Char) :
    bytes (bs.flatMap escape ++ rest) = bs ++ bytes rest := by
  induction bs with
  | nil => rfl
  | cons b bs ih =>
    rw [List.flatMap_cons, List.append_assoc, bytes_escape, ih, List.cons_append]

theorem percent_not_unreserved : isUnreserved '%' = false := by
  decide

/-- Any character but a percent sign stands for itself. -/
theorem bytes_cons_of_ne {c : Char} (h : c ≠ '%') (rest : List Char) :
    bytes (c :: rest) = String.utf8EncodeChar c ++ bytes rest := by
  rw [bytes.eq_def]
  split
  · next heq => cases heq
  · next heq => exact absurd (List.cons.inj heq).1 h
  · next c' rest' _ heq =>
    obtain ⟨rfl, rfl⟩ := List.cons.inj heq
    rfl

theorem bytes_encodeChar (c : Char) (rest : List Char) :
    bytes (encodeChar c ++ rest) = String.utf8EncodeChar c ++ bytes rest := by
  unfold encodeChar
  by_cases h : isUnreserved c = true
  · have hc : c ≠ '%' := fun e => by
      rw [e, percent_not_unreserved] at h
      cases h
    rw [if_pos h, List.singleton_append, bytes_cons_of_ne hc]
  · rw [if_neg h, bytes_flatMap_escape]

theorem bytes_flatMap_encodeChar (cs : List Char) :
    bytes (cs.flatMap encodeChar) = cs.flatMap String.utf8EncodeChar := by
  induction cs with
  | nil => rfl
  | cons c cs ih => rw [List.flatMap_cons, bytes_encodeChar, ih, List.flatMap_cons]

/-- The bytes of a text are those of its characters. -/
theorem toByteArray_eq (s : String) :
    ByteArray.mk (s.toList.flatMap String.utf8EncodeChar).toArray = s.toByteArray := by
  rw [← String.utf8Encode_toList, List.utf8Encode]
  exact ByteArray.ext List.data_toByteArray.symm

/-- Decoding undoes encoding. -/
theorem decode?_encode (s : String) : decode? (encode s) = some s := by
  rw [decode?, encode, String.toList_ofList, bytes_flatMap_encodeChar, toByteArray_eq,
    String.fromUTF8?, dif_pos s.isValidUTF8]
  rfl

theorem encode_injective {s t : String} (h : encode s = encode t) : s = t := by
  have hdecode := congrArg decode? h
  rw [decode?_encode, decode?_encode] at hdecode
  exact Option.some.inj hdecode

/-- Whether a character may be part of a percent-encoded text. -/
def isEncoded (c : Char) : Bool :=
  isUnreserved c || c == '%'

theorem isUnreserved_hexDigit : ∀ n < 16, isUnreserved (hexDigit n) = true := by
  decide

theorem isEncoded_of_mem_encodeChar {c d : Char} (h : d ∈ encodeChar c) : isEncoded d = true := by
  unfold encodeChar at h
  split at h
  · next hc =>
    rw [List.mem_singleton.mp h, isEncoded, hc, Bool.true_or]
  · obtain ⟨b, -, hd⟩ := List.mem_flatMap.mp h
    have hb : b.toNat < 256 := b.toNat_lt
    simp only [escape, List.mem_cons, List.not_mem_nil, or_false] at hd
    rcases hd with rfl | rfl | rfl
    · decide
    · rw [isEncoded, isUnreserved_hexDigit _ (by omega), Bool.true_or]
    · rw [isEncoded, isUnreserved_hexDigit _ (by omega), Bool.true_or]

theorem isEncoded_of_mem_encode {s : String} {c : Char} (h : c ∈ (encode s).toList) :
    isEncoded c = true := by
  rw [encode, String.toList_ofList] at h
  obtain ⟨d, -, hc⟩ := List.mem_flatMap.mp h
  exact isEncoded_of_mem_encodeChar hc

theorem encode_eq_empty {s : String} : encode s = "" ↔ s = "" := by
  constructor
  · intro h
    exact encode_injective (h.trans (by rfl))
  · rintro rfl
    rfl

/-- Every character stands for some byte. -/
theorem bytes_eq_nil {cs : List Char} (h : bytes cs = []) : cs = [] := by
  have hchar (c : Char) : String.utf8EncodeChar c ≠ [] := by
    rw [ne_eq, ← List.length_eq_zero_iff, String.length_utf8EncodeChar]
    exact Nat.ne_of_gt (Char.utf8Size_pos c)
  unfold bytes at h
  split at h
  · rfl
  · split at h
    · cases h
    · exact absurd (List.append_eq_nil_iff.mp h).1 (hchar _)
  · exact absurd (List.append_eq_nil_iff.mp h).1 (hchar _)

/-- Only the empty text decodes to it. -/
theorem ne_empty_of_decode? {s t : String} (h : decode? s = some t) (hs : s ≠ "") : t ≠ "" := by
  rintro rfl
  unfold decode? String.fromUTF8? at h
  split at h
  · have hbytes := congrArg (fun t : String => t.toByteArray.data.toList) (Option.some.inj h)
    exact hs (String.toList_eq_nil_iff.mp (bytes_eq_nil hbytes))
  · cases h

theorem encode_append (s t : String) : encode (s ++ t) = encode s ++ encode t := by
  rw [encode, String.toList_append, List.flatMap_append, String.ofList_append]
  rfl

/-- A text of unreserved characters is written as itself. -/
theorem encode_of_isUnreserved {s : String} (h : ∀ c ∈ s.toList, isUnreserved c = true) :
    encode s = s := by
  have hself : s.toList.flatMap encodeChar = s.toList.flatMap ([·]) :=
    List.flatMap_congr fun c hc => by rw [encodeChar, if_pos (h c hc)]
  rw [encode, hself, List.flatMap_singleton', String.ofList_toList]

theorem isEncoded_of_encode_eq {s t rest : String} (h : encode s = rest ++ t) {c : Char}
    (hc : c ∈ rest.toList) : isEncoded c = true := by
  refine isEncoded_of_mem_encode (s := s) ?_
  rw [h, String.toList_append]
  exact List.mem_append_left _ hc

/-- Two texts that go on with encoded ones are the same only if one of them is the other
and some characters that encoded texts have. -/
theorem append_encode_eq {p q s t : String} (h : p ++ encode s = q ++ encode t) :
    ∃ rest : String, (∀ c ∈ rest.toList, isEncoded c = true) ∧
      (q = p ++ rest ∧ encode s = rest ++ encode t ∨
        p = q ++ rest ∧ encode t = rest ++ encode s) := by
  have happend {s t : String} {cs : List Char} (h : s.toList = t.toList ++ cs) :
      s = t ++ String.ofList cs := by
    rw [String.ext_iff, String.toList_append, String.toList_ofList, h]
  have happend' {s t : String} {cs : List Char} (h : s.toList = cs ++ t.toList) :
      s = String.ofList cs ++ t := by
    rw [String.ext_iff, String.toList_append, String.toList_ofList, h]
  have hlists := congrArg String.toList h
  rw [String.toList_append, String.toList_append, List.append_eq_append_iff] at hlists
  rcases hlists with ⟨cs, hq, hs⟩ | ⟨cs, hp, ht⟩
  · exact ⟨_, fun _ => isEncoded_of_encode_eq (happend' hs), .inl ⟨happend hq, happend' hs⟩⟩
  · exact ⟨_, fun _ => isEncoded_of_encode_eq (happend' ht), .inr ⟨happend hp, happend' ht⟩⟩

/-! ## Byte by byte -/

/-- Whether a byte is the code of a character that is written as itself: a letter, a
digit, or one of `-`, `.`, `_` and `~`. -/
def isKept (b : UInt8) : Bool :=
  (0x41 ≤ b && b ≤ 0x5A) || (0x61 ≤ b && b ≤ 0x7A) || (0x30 ≤ b && b ≤ 0x39) ||
    b == 0x2D || b == 0x2E || b == 0x5F || b == 0x7E

/-- The written form of one byte. -/
def encodeByte (b : UInt8) : List Char :=
  if isKept b then [Char.ofNat b.toNat] else escape b

theorem encodeByte_of_le {b : UInt8} (h : 128 ≤ b.toNat) : encodeByte b = escape b := by
  have hkept : isKept b = false := by
    simp only [isKept, UInt8.le_iff_toNat_le, beq_eq_false_iff_ne, Bool.or_eq_false_iff,
      Bool.and_eq_false_iff, decide_eq_false_iff_not, ne_eq, ← UInt8.toNat_inj]
    simp only [UInt8.toNat_ofNat]
    omega
  rw [encodeByte, hkept, if_neg Bool.false_ne_true]

theorem isUnreserved_of_lt {c : Char} (h : 127 < c.toNat) : isUnreserved c = false := by
  have hle {d : Char} (hd : d.toNat ≤ 127) : ¬c ≤ d := fun hcd => by
    have : c.toNat ≤ d.toNat := hcd
    omega
  have hne {d : Char} (hd : d.toNat ≤ 127) : c ≠ d := fun he => by
    rw [he] at h
    omega
  simp [isUnreserved, hle (d := 'Z') (by decide), hle (d := 'z') (by decide),
    hle (d := '9') (by decide), hne (d := '-') (by decide), hne (d := '.') (by decide),
    hne (d := '_') (by decide), hne (d := '~') (by decide)]

/-- Beyond ASCII all bytes of a character are large. -/
theorem le_of_mem_utf8EncodeChar {c : Char} (h : 127 < c.toNat) {b : UInt8}
    (hb : b ∈ String.utf8EncodeChar c) : 128 ≤ b.toNat := by
  have hval : ¬c.val.toNat ≤ 127 := Nat.not_le.mpr h
  unfold String.utf8EncodeChar at hb
  simp only [hval, if_false] at hb
  split_ifs at hb <;> simp only [List.mem_cons, List.not_mem_nil, or_false] at hb <;>
    rcases hb with rfl | rfl | rfl | rfl <;> simp only [UInt8.toNat_ofNat'] <;> omega

theorem encodeChar_eq (c : Char) : encodeChar c = (String.utf8EncodeChar c).flatMap encodeByte := by
  by_cases h : c.toNat ≤ 127
  · have hascii : ∀ n < 128, encodeChar (Char.ofNat n) =
        (String.utf8EncodeChar (Char.ofNat n)).flatMap encodeByte := by decide
    rw [← Char.ofNat_toNat c]
    exact hascii _ (Nat.lt_succ_of_le h)
  · have hlt := Nat.lt_of_not_le h
    rw [encodeChar, isUnreserved_of_lt hlt, if_neg Bool.false_ne_true]
    exact (List.flatMap_congr fun b hb => encodeByte_of_le (le_of_mem_utf8EncodeChar hlt hb)).symm

/-- Every byte of the UTF-8 form of a text is written on its own. -/
theorem toList_encode (s : String) :
    (encode s).toList = s.toUTF8.data.toList.flatMap encodeByte := by
  have hbytes : s.toUTF8.data.toList = s.toList.flatMap String.utf8EncodeChar :=
    congrArg (fun bs => bs.data.toList) (toByteArray_eq s).symm
  rw [encode, String.toList_ofList, hbytes, List.flatMap_assoc]
  exact List.flatMap_congr fun c _ => encodeChar_eq c

end DocGraph.Text.Percent
