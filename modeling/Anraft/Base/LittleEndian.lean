import Mathlib

/-!
# Numbers in a fixed number of bytes

The lowest `w` bytes of a number, least significant first, are its first `w` digits to
the base 256. Lists of `w` bytes and numbers below `256 ^ w` determine each other.
-/

namespace LittleEndian

variable {bytes : List UInt8} {w n : ℕ}

def bytesOf (w n : ℕ) : List UInt8 := (List.range w).map fun i => UInt8.ofNat (n / 256 ^ i)

def ofBytes (bytes : List UInt8) : ℕ := Nat.ofDigits 256 (bytes.map UInt8.toNat)

@[simp] theorem length_bytesOf (w n : ℕ) : (bytesOf w n).length = w := by
  simp [bytesOf]

theorem bytesOf_succ (w n : ℕ) :
    bytesOf (w + 1) n = bytesOf w n ++ [UInt8.ofNat (n / 256 ^ w)] := by
  unfold bytesOf
  rw [List.range_succ, List.map_append]
  rfl

/-- **Round trip.** Higher bytes are dropped. -/
theorem ofBytes_bytesOf (w n : ℕ) : ofBytes (bytesOf w n) = n % 256 ^ w := by
  induction w with
  | zero => simp [bytesOf, ofBytes, Nat.mod_one]
  | succ w ih =>
      unfold ofBytes at ih ⊢
      rw [bytesOf_succ, List.map_append, Nat.ofDigits_append, ih, List.length_map,
        length_bytesOf, Nat.mod_pow_succ, List.map_singleton, Nat.ofDigits_singleton,
        UInt8.toNat_ofNat']

theorem ofBytes_lt (bytes : List UInt8) : ofBytes bytes < 256 ^ bytes.length := by
  have hlt := Nat.ofDigits_lt_base_pow_length (b := 256) (l := bytes.map UInt8.toNat)
    (by norm_num) ?_
  · rwa [List.length_map] at hlt
  · intro d hd
    obtain ⟨b, -, rfl⟩ := List.mem_map.mp hd
    exact b.toNat_lt

theorem ofBytes_inj {bytes' : List UInt8} (hlength : bytes.length = bytes'.length)
    (h : ofBytes bytes = ofBytes bytes') : bytes = bytes' := by
  have hdigits : ∀ bs : List UInt8, ∀ d ∈ bs.map UInt8.toNat, d < 256 := by
    intro bs d hd
    obtain ⟨b, -, rfl⟩ := List.mem_map.mp hd
    exact b.toNat_lt
  have hmap : bytes.map UInt8.toNat = bytes'.map UInt8.toNat :=
    Nat.ofDigits_inj_of_len_eq (by norm_num) (by simpa using hlength) (hdigits _) (hdigits _) h
  exact List.map_injective_iff.mpr (fun _ _ => UInt8.toNat_inj.mp) hmap

/-- Bytes denote a number exactly when they are its bytes. -/
theorem ofBytes_eq_iff (hlength : bytes.length = w) (hn : n < 256 ^ w) :
    ofBytes bytes = n ↔ bytes = bytesOf w n := by
  constructor
  · intro h
    apply ofBytes_inj
    · rw [hlength, length_bytesOf]
    · rw [ofBytes_bytesOf, Nat.mod_eq_of_lt hn, h]
  · intro h
    rw [h, ofBytes_bytesOf, Nat.mod_eq_of_lt hn]

end LittleEndian
