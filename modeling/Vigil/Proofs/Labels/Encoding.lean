import Vigil.Labels

/-!
# The byte form of a label set

Each text of a label set is written behind its length, so a reader of the byte
form knows where every text ends. The form therefore tells any two label sets
apart (`Labels.encode_inj`), as long as eight bytes can write every length. An
identity is the digest of that form, and two label sets share one only if the
digest collides (`Labels.Separate.eq_of_id_eq`).
-/

namespace Vigil

namespace Sha256

theorem length_bigEndian (width n : Nat) : (bigEndian width n).length = width := by
  induction width with
  | zero => rfl
  | succ width ih => rw [bigEndian, List.length_cons, ih]

/-- The bytes of a number determine it up to what they have room for. -/
theorem mod_eq_of_bigEndian_eq {width n m : Nat} (h : bigEndian width n = bigEndian width m) :
    n % Nat.pow 256 width = m % Nat.pow 256 width := by
  induction width with
  | zero => rw [Nat.pow_eq, Nat.pow_zero, Nat.mod_one, Nat.mod_one]
  | succ width ih =>
      rw [bigEndian, bigEndian, List.cons.injEq] at h
      have hhigh : n / Nat.pow 256 width % 256 = m / Nat.pow 256 width % 256 := by
        have := congrArg UInt8.toNat h.1
        simpa using this
      have hlow := ih h.2
      rw [Nat.pow_eq] at hhigh hlow ⊢
      rw [Nat.mod_pow_succ, Nat.mod_pow_succ, hlow, hhigh]

end Sha256

namespace Labels

theorem length_encodeText (s : String) : (encodeText s).length = 8 + s.utf8ByteSize := by
  simp [encodeText, Sha256.length_bigEndian]

/-- A text of a length that eight bytes can write. -/
def Short (s : String) : Prop := s.utf8ByteSize < Nat.pow 256 8

/-- Every name and every value has a length that eight bytes can write, as any
text in memory has. -/
def Encodable (ls : Labels) : Prop := ∀ e ∈ ls.entries, Short e.1 ∧ Short e.2

instance (s : String) : Decidable (Short s) := inferInstanceAs (Decidable (_ < _))

instance (ls : Labels) : Decidable ls.Encodable :=
  inferInstanceAs (Decidable (∀ e ∈ ls.entries, Short e.1 ∧ Short e.2))

/-- Whatever follows an encoded text, the text can be read back. -/
theorem encodeText_append_inj {s t : String} {xs ys : List UInt8} (hs : Short s) (ht : Short t)
    (h : encodeText s ++ xs = encodeText t ++ ys) : s = t ∧ xs = ys := by
  unfold encodeText at h
  rw [List.append_assoc, List.append_assoc] at h
  -- the length stands first, and it says where the text ends
  obtain ⟨hlen, hrest⟩ := List.append_inj h
    (by rw [Sha256.length_bigEndian, Sha256.length_bigEndian])
  have hsize : s.utf8ByteSize = t.utf8ByteSize := by
    have := Sha256.mod_eq_of_bigEndian_eq hlen
    rwa [Nat.mod_eq_of_lt hs, Nat.mod_eq_of_lt ht] at this
  obtain ⟨hbytes, hxs⟩ := List.append_inj hrest (by simp [hsize])
  refine ⟨?_, hxs⟩
  rw [← String.toByteArray_inj]
  apply ByteArray.ext
  apply Array.toList_inj.1
  simpa using hbytes

theorem encode_entries_inj {es fs : List (String × String)}
    (hes : ∀ e ∈ es, Short e.1 ∧ Short e.2) (hfs : ∀ f ∈ fs, Short f.1 ∧ Short f.2)
    (h : (es.flatMap fun e => encodeText e.1 ++ encodeText e.2) =
      fs.flatMap fun f => encodeText f.1 ++ encodeText f.2) : es = fs := by
  induction es generalizing fs with
  | nil =>
      cases fs with
      | nil => rfl
      | cons f fs =>
          have := congrArg List.length h.symm
          simp [length_encodeText] at this
  | cons e es ih =>
      cases fs with
      | nil =>
          have := congrArg List.length h
          simp [length_encodeText] at this
      | cons f fs =>
          rw [List.flatMap_cons, List.flatMap_cons, List.append_assoc, List.append_assoc] at h
          obtain ⟨he₁, he₂⟩ := hes e List.mem_cons_self
          obtain ⟨hf₁, hf₂⟩ := hfs f List.mem_cons_self
          obtain ⟨hname, h⟩ := encodeText_append_inj he₁ hf₁ h
          obtain ⟨hvalue, h⟩ := encodeText_append_inj he₂ hf₂ h
          rw [Prod.ext hname hvalue, ih (fun e he => hes e (List.mem_cons_of_mem _ he))
            (fun f hf => hfs f (List.mem_cons_of_mem _ hf)) h]

theorem encode_inj {a b : Labels} (ha : a.Encodable) (hb : b.Encodable) (h : a.encode = b.encode) :
    a = b := by
  have he : a.entries = b.entries := encode_entries_inj ha hb h
  cases a
  cases b
  cases he
  rfl

/-- The digest does not collide on the byte forms of the label sets in `S`, whose
texts all have lengths that the form can write. -/
structure Separate (S : Labels → Prop) : Prop where
  encodable : ∀ {a}, S a → a.Encodable
  digest_inj : ∀ {a b}, S a → S b → Sha256.hex a.encode = Sha256.hex b.encode →
    a.encode = b.encode

theorem Separate.eq_of_id_eq {S : Labels → Prop} (hS : Separate S) {a b : Labels} (ha : S a)
    (hb : S b) (h : a.id = b.id) : a = b :=
  encode_inj (hS.encodable ha) (hS.encodable hb) (hS.digest_inj ha hb h)

end Labels

end Vigil
