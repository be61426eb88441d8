import GoSplice.Text.Utf8

/-!
# UTF-8: reading inverts writing

The strict reading of bytes and the encoding of texts are inverse to each other,
so a text and its bytes can be cut at the same places:

    decode? bs = some s ↔ bs = encode s                (decode?_eq_some_iff)
    decodeLossy (encode s) = s                         (decodeLossy_encode)
    textOf (encode s) = s                              (textOf_encode)
-/

namespace GoSplice

namespace Utf8

/-! ## Encoding -/

@[simp] theorem encode_cons (c : Char) (s : List Char) :
    encode (c :: s) = String.utf8EncodeChar c ++ encode s := rfl

@[simp] theorem encode_append (s t : List Char) : encode (s ++ t) = encode s ++ encode t := by
  unfold encode
  rw [List.flatMap_append]

/-! ## Bytes of characters -/

/-- A byte of a character is that character, or none of ASCII. -/
theorem mem_utf8EncodeChar {c : Char} {b : UInt8} (h : b ∈ String.utf8EncodeChar c) :
    128 ≤ b.toNat ∨ b.toNat = c.toNat := by
  have hv : c.val.toNat < 0xD800 ∨ 0xDFFF < c.val.toNat ∧ c.val.toNat < 0x110000 := c.valid
  unfold String.utf8EncodeChar at h
  unfold Char.toNat
  generalize c.val.toNat = v at h hv ⊢
  dsimp only at h
  split at h
  · rw [List.mem_singleton] at h
    subst h
    rw [UInt8.toNat_ofNat']
    omega
  · split at h
    · simp only [List.mem_cons, List.not_mem_nil, or_false] at h
      rcases h with rfl | rfl <;> rw [UInt8.toNat_ofNat'] <;> omega
    · split at h
      · simp only [List.mem_cons, List.not_mem_nil, or_false] at h
        rcases h with rfl | rfl | rfl <;> rw [UInt8.toNat_ofNat'] <;> omega
      · simp only [List.mem_cons, List.not_mem_nil, or_false] at h
        rcases h with rfl | rfl | rfl | rfl <;> rw [UInt8.toNat_ofNat'] <;> omega

theorem exists_utf8EncodeChar (c : Char) : ∃ b r, String.utf8EncodeChar c = b :: r := by
  refine List.exists_cons_of_length_pos ?_
  rw [String.length_utf8EncodeChar]
  exact c.utf8Size_pos

/-! ## Reading what was written -/

/-- The bytes of a character are read as that character. -/
theorem piecesFrom_utf8EncodeChar (c : Char) (r : Bytes) :
    piecesFrom .between (String.utf8EncodeChar c ++ r) = .char c :: piecesFrom .between r := by
  have hc : Char.ofNat c.val.toNat = c := Char.ofNat_toNat c
  have hv : c.val.toNat < 0xD800 ∨ 0xDFFF < c.val.toNat ∧ c.val.toNat < 0x110000 := c.valid
  unfold String.utf8EncodeChar
  generalize c.val.toNat = v at hc hv
  dsimp only
  split
  · have h0 : (UInt8.ofNat v).toNat = v := by rw [UInt8.toNat_ofNat']; omega
    simp only [List.cons_append, List.nil_append, piecesFrom, feed, start, h0]
    rw [if_pos (by omega)]
    simp [hc]
  · split
    · have h1 : (UInt8.ofNat (v / 64 % 0x20 + 0xc0)).toNat = v / 64 + 0xc0 := by
        rw [UInt8.toNat_ofNat']; omega
      have h0 : (UInt8.ofNat (v % 0x40 + 0x80)).toNat = v % 64 + 0x80 := by
        rw [UInt8.toNat_ofNat']; omega
      simp only [List.cons_append, List.nil_append, piecesFrom, feed, start, h0, h1]
      rw [if_neg (by omega), if_neg (by omega), if_pos (by omega)]
      simp only [List.nil_append]
      rw [if_pos (by omega), if_pos (by omega)]
      rw [show (v / 64 + 0xc0 - 0xC0) * 64 + (v % 64 + 0x80 - 0x80) = v by omega]
      simp [hc]
    · split
      · have h2 : (UInt8.ofNat (v / 4096 % 0x10 + 0xe0)).toNat = v / 4096 + 0xe0 := by
          rw [UInt8.toNat_ofNat']; omega
        have h1 : (UInt8.ofNat (v / 64 % 0x40 + 0x80)).toNat = v / 64 % 64 + 0x80 := by
          rw [UInt8.toNat_ofNat']; omega
        have h0 : (UInt8.ofNat (v % 0x40 + 0x80)).toNat = v % 64 + 0x80 := by
          rw [UInt8.toNat_ofNat']; omega
        simp only [List.cons_append, List.nil_append, piecesFrom, feed, start, h0, h1, h2]
        rw [if_neg (by omega), if_neg (by omega), if_neg (by omega), if_pos (by omega)]
        simp only [List.nil_append]
        rw [if_pos (by split <;> split <;> omega), if_neg (by omega)]
        simp only [List.nil_append]
        rw [if_pos (by omega), if_pos (by omega)]
        rw [show ((v / 4096 + 0xe0 - 0xE0) * 64 + (v / 64 % 64 + 0x80 - 0x80)) * 64 +
          (v % 64 + 0x80 - 0x80) = v by omega]
        simp [hc]
      · have h3 : (UInt8.ofNat (v / 262144 % 0x08 + 0xf0)).toNat = v / 262144 + 0xf0 := by
          rw [UInt8.toNat_ofNat']; omega
        have h2 : (UInt8.ofNat (v / 4096 % 0x40 + 0x80)).toNat = v / 4096 % 64 + 0x80 := by
          rw [UInt8.toNat_ofNat']; omega
        have h1 : (UInt8.ofNat (v / 64 % 0x40 + 0x80)).toNat = v / 64 % 64 + 0x80 := by
          rw [UInt8.toNat_ofNat']; omega
        have h0 : (UInt8.ofNat (v % 0x40 + 0x80)).toNat = v % 64 + 0x80 := by
          rw [UInt8.toNat_ofNat']; omega
        simp only [List.cons_append, List.nil_append, piecesFrom, feed, start, h0, h1, h2, h3]
        rw [if_neg (by omega), if_neg (by omega), if_neg (by omega), if_neg (by omega),
          if_pos (by omega)]
        simp only [List.nil_append]
        rw [if_pos (by split <;> split <;> omega), if_neg (by omega)]
        simp only [List.nil_append]
        rw [if_pos (by omega), if_neg (by omega)]
        simp only [List.nil_append]
        rw [if_pos (by omega), if_pos (by omega)]
        rw [show (((v / 262144 + 0xf0 - 0xF0) * 64 + (v / 4096 % 64 + 0x80 - 0x80)) * 64 +
          (v / 64 % 64 + 0x80 - 0x80)) * 64 + (v % 64 + 0x80 - 0x80) = v by omega]
        simp [hc]

theorem pieces_encode (s : List Char) : pieces (encode s) = s.map .char := by
  induction s with
  | nil => rfl
  | cons c s ih =>
    rw [encode_cons]
    show piecesFrom .between _ = _
    rw [piecesFrom_utf8EncodeChar]
    rw [List.map_cons, ← ih]
    rfl

theorem charsOf?_map_char (s : List Char) : charsOf? (s.map .char) = some s := by
  induction s with
  | nil => rfl
  | cons c s ih => simp [charsOf?, ih]

theorem decode?_encode (s : List Char) : decode? (encode s) = some s := by
  unfold decode?
  rw [pieces_encode, charsOf?_map_char]

theorem decodeLossy_encode (s : List Char) : decodeLossy (encode s) = s := by
  unfold decodeLossy
  rw [pieces_encode, List.map_map]
  exact List.map_id s

/-! ## Writing what was read -/

/-- Inside a character the next byte lies in its bounds, if the bytes are a text. -/
theorem charsOf?_inside {bits taken need lo hi : Nat} {bs : Bytes} {s : List Char}
    (h : charsOf? (piecesFrom (.inside bits taken need lo hi) bs) = some s) :
    ∃ b r, bs = b :: r ∧ lo ≤ b.toNat ∧ b.toNat ≤ hi ∧
      if need ≤ 1 then
        ∃ s', s = Char.ofNat (bits * 64 + (b.toNat - 0x80)) :: s' ∧
          charsOf? (piecesFrom .between r) = some s'
      else
        charsOf? (piecesFrom
          (.inside (bits * 64 + (b.toNat - 0x80)) (taken + 1) (need - 1) 0x80 0xBF) r) = some s := by
  cases bs with
  | nil => simp [piecesFrom, charsOf?] at h
  | cons b r =>
    refine ⟨b, r, rfl, ?_⟩
    simp only [piecesFrom, feed] at h
    by_cases hb : lo ≤ b.toNat ∧ b.toNat ≤ hi
    · refine ⟨hb.1, hb.2, ?_⟩
      rw [if_pos hb] at h
      by_cases hn : need ≤ 1
      · rw [if_pos hn] at h ⊢
        simp only [List.cons_append, List.nil_append, charsOf?] at h
        obtain ⟨s', hs', rfl⟩ := Option.map_eq_some_iff.mp h
        exact ⟨s', rfl, hs'⟩
      · rw [if_neg hn] at h ⊢
        exact h
    · rw [if_neg hb] at h
      simp [charsOf?] at h

theorem toNat_ofNat_valid {n : Nat} (h : n < 0xD800 ∨ 0xDFFF < n ∧ n < 0x110000) :
    (Char.ofNat n).val.toNat = n := by
  have hn : n.isValidChar := h
  unfold Char.ofNat
  rw [dif_pos hn]
  rfl

theorem uint8_eq {b : UInt8} {n : Nat} (h : n % 256 = b.toNat) : UInt8.ofNat n = b := by
  rw [← UInt8.toNat_inj, UInt8.toNat_ofNat']
  exact h

/-- The text of bytes that are one begins with a character and its bytes. -/
theorem decode?_cons {b : UInt8} {r : Bytes} {s : List Char} (h : decode? (b :: r) = some s) :
    ∃ c s' r', s = c :: s' ∧ b :: r = String.utf8EncodeChar c ++ r' ∧ decode? r' = some s' := by
  have hb := b.toNat_lt
  simp only [decode?, pieces, piecesFrom, feed, start] at h
  split at h
  · next h1 =>
    simp only [List.cons_append, List.nil_append, charsOf?] at h
    obtain ⟨s', hs', rfl⟩ := Option.map_eq_some_iff.mp h
    refine ⟨_, s', r, rfl, ?_, hs'⟩
    have hv : (Char.ofNat b.toNat).val.toNat = b.toNat := toNat_ofNat_valid (by omega)
    unfold String.utf8EncodeChar
    rw [hv]
    dsimp only
    rw [if_pos (by omega)]
    simp
  split at h
  · simp [charsOf?] at h
  split at h
  · next h1 h2 h3 =>
    simp only [List.nil_append] at h
    obtain ⟨b1, r1, rfl, hl1, hh1, h⟩ := charsOf?_inside h
    rw [if_pos (by omega)] at h
    obtain ⟨s', rfl, hs'⟩ := h
    refine ⟨_, s', r1, rfl, ?_, hs'⟩
    have hb1 := b1.toNat_lt
    generalize hn : (b.toNat - 0xC0) * 64 + (b1.toNat - 0x80) = n
    have hv : (Char.ofNat n).val.toNat = n := toNat_ofNat_valid (by omega)
    unfold String.utf8EncodeChar
    rw [hv]
    dsimp only
    rw [if_neg (by omega), if_pos (by omega)]
    rw [uint8_eq (b := b) (by omega), uint8_eq (b := b1) (by omega)]
    rfl
  split at h
  · next h1 h2 h3 h4 =>
    simp only [List.nil_append] at h
    obtain ⟨b1, r1, rfl, hl1, hh1, h⟩ := charsOf?_inside h
    rw [if_neg (by omega)] at h
    obtain ⟨b2, r2, rfl, hl2, hh2, h⟩ := charsOf?_inside h
    rw [if_pos (by omega)] at h
    obtain ⟨s', rfl, hs'⟩ := h
    refine ⟨_, s', r2, rfl, ?_, hs'⟩
    have hb1 := b1.toNat_lt
    have hb2 := b2.toNat_lt
    generalize hn : ((b.toNat - 0xE0) * 64 + (b1.toNat - 0x80)) * 64 + (b2.toNat - 0x80) = n
    have hlo : 0x800 ≤ n ∧ (n < 0xD800 ∨ 0xDFFF < n) := by
      split at hl1 <;> split at hh1 <;> omega
    have hlo1 : 0x80 ≤ b1.toNat ∧ b1.toNat ≤ 0xBF := by
      split at hl1 <;> split at hh1 <;> omega
    have hv : (Char.ofNat n).val.toNat = n := toNat_ofNat_valid (by omega)
    unfold String.utf8EncodeChar
    rw [hv]
    dsimp only
    rw [if_neg (by omega), if_neg (by omega), if_pos (by omega)]
    rw [uint8_eq (b := b) (by omega), uint8_eq (b := b1) (by omega), uint8_eq (b := b2) (by omega)]
    rfl
  split at h
  · next h1 h2 h3 h4 h5 =>
    simp only [List.nil_append] at h
    obtain ⟨b1, r1, rfl, hl1, hh1, h⟩ := charsOf?_inside h
    rw [if_neg (by omega)] at h
    obtain ⟨b2, r2, rfl, hl2, hh2, h⟩ := charsOf?_inside h
    rw [if_neg (by omega)] at h
    obtain ⟨b3, r3, rfl, hl3, hh3, h⟩ := charsOf?_inside h
    rw [if_pos (by omega)] at h
    obtain ⟨s', rfl, hs'⟩ := h
    refine ⟨_, s', r3, rfl, ?_, hs'⟩
    have hb1 := b1.toNat_lt
    have hb2 := b2.toNat_lt
    have hb3 := b3.toNat_lt
    generalize hn : (((b.toNat - 0xF0) * 64 + (b1.toNat - 0x80)) * 64 + (b2.toNat - 0x80)) * 64 +
      (b3.toNat - 0x80) = n
    have hlo : 0x10000 ≤ n ∧ n < 0x110000 := by
      split at hl1 <;> split at hh1 <;> omega
    have hlo1 : 0x80 ≤ b1.toNat ∧ b1.toNat ≤ 0xBF := by
      split at hl1 <;> split at hh1 <;> omega
    have hv : (Char.ofNat n).val.toNat = n := toNat_ofNat_valid (by omega)
    unfold String.utf8EncodeChar
    rw [hv]
    dsimp only
    rw [if_neg (by omega), if_neg (by omega), if_neg (by omega)]
    rw [uint8_eq (b := b) (by omega), uint8_eq (b := b1) (by omega), uint8_eq (b := b2) (by omega),
      uint8_eq (b := b3) (by omega)]
    rfl
  · simp [charsOf?] at h

theorem eq_encode_of_decode? {bs : Bytes} {s : List Char} (h : decode? bs = some s) :
    bs = encode s := by
  induction s generalizing bs with
  | nil =>
    cases bs with
    | nil => rfl
    | cons b r =>
      obtain ⟨c, s', r', hs, -, -⟩ := decode?_cons h
      cases hs
  | cons c s ih =>
    cases bs with
    | nil => cases h
    | cons b r =>
      obtain ⟨c', s', r', hs, hr, hd⟩ := decode?_cons h
      cases hs
      rw [hr, ih hd, encode_cons]

/-- Bytes that are a text are the bytes of that text. -/
theorem decode?_eq_some_iff {bs : Bytes} {s : List Char} : decode? bs = some s ↔ bs = encode s :=
  ⟨eq_encode_of_decode?, fun h => h ▸ decode?_encode s⟩

theorem encode_injective {s t : List Char} (h : encode s = encode t) : s = t := by
  have := decode?_encode s
  rw [h, decode?_encode t] at this
  exact (Option.some.inj this).symm

end Utf8

/-! ## Bytes of strings -/

@[simp] theorem textOf_encode (s : List Char) : textOf (Utf8.encode s) = String.ofList s := by
  unfold textOf
  rw [Utf8.decodeLossy_encode]

theorem bytesOf_ofList (s : List Char) : bytesOf (String.ofList s) = Utf8.encode s := by
  unfold bytesOf
  rw [String.toList_ofList]

end GoSplice
