/-!
# ObjectMachine.Heap.Marks

Sets of cells, one bit for each cell, 64 to a word.

* `Marks.has` — whether a cell is in the set. A cell beyond the last word is not.
* `Marks.add` — puts a cell in the set, in as many words as that takes.
* `Marks.has_add` — the set with a cell added has that cell and those it had.
-/

namespace ObjectMachine

structure Marks where
  words : Array UInt64 := #[]
deriving Inhabited

namespace Marks

/-- The bit of a cell in its word. -/
def bit (i : Nat) : UInt64 :=
  1 <<< UInt64.ofNat (i % 64)

def has (m : Marks) (i : Nat) : Bool :=
  match m.words[i / 64]? with
  | some w => w &&& bit i != 0
  | none => false

/-- The words, with zeros after them up to a length. -/
def resize (words : Array UInt64) (n : Nat) : Array UInt64 :=
  words ++ Array.replicate (n - words.size) 0

def add (m : Marks) (i : Nat) : Marks :=
  ⟨(resize m.words (i / 64 + 1)).modify (i / 64) (· ||| bit i)⟩

theorem bit_toNat (i : Nat) : (bit i).toNat = 1 <<< (i % 64) := by
  have hlt : i % 64 < 64 := Nat.mod_lt _ (by decide)
  have hsmall : i % 64 < 2 ^ 64 := Nat.lt_trans hlt (by decide)
  have hpow : 2 ^ (i % 64) < 2 ^ 64 := Nat.pow_lt_pow_right (by decide) hlt
  rw [bit, UInt64.toNat_shiftLeft, UInt64.toNat_ofNat', Nat.mod_eq_of_lt hsmall,
    Nat.mod_eq_of_lt hlt, UInt64.toNat_one, Nat.one_shiftLeft, Nat.mod_eq_of_lt hpow]

/-- A word has the bit of a cell if and only if the number it stands for has it. -/
theorem and_bit (w : UInt64) (i : Nat) : (w &&& bit i != 0) = w.toNat.testBit (i % 64) := by
  have hn : (w &&& bit i).toNat = w.toNat &&& 2 ^ (i % 64) := by
    rw [UInt64.toNat_and, bit_toNat, Nat.one_shiftLeft]
  cases hb : w.toNat.testBit (i % 64) with
  | false =>
    have hz : w.toNat &&& 2 ^ (i % 64) = 0 := by
      apply Nat.eq_of_testBit_eq
      intro j
      rw [Nat.testBit_and, Nat.testBit_two_pow, Nat.zero_testBit]
      by_cases hj : i % 64 = j
      · subst hj; simp [hb]
      · simp [hj]
    have : w &&& bit i = 0 := UInt64.toNat_inj.mp (by rw [hn, hz]; rfl)
    simp [this]
  | true =>
    have hne : w &&& bit i ≠ 0 := by
      intro h
      have := congrArg (fun n => n.testBit (i % 64)) (hn.symm.trans (by rw [h]; rfl : _ = 0))
      simp [Nat.testBit_and, hb] at this
    simpa using hne

theorem getElem?_resize (words : Array UInt64) (n j : Nat) :
    (resize words n)[j]? = if j < words.size then words[j]? else if j < n then some 0 else none := by
  rw [resize, Array.getElem?_append]
  by_cases h : j < words.size
  · simp [h]
  · simp only [h, if_false, Array.getElem?_replicate]
    by_cases hn : j < n
    · rw [if_pos hn, if_pos (by omega)]
    · rw [if_neg hn, if_neg (by omega)]

/-- Lengthening the words changes no set. -/
theorem has_resize (words : Array UInt64) (n j : Nat) :
    has ⟨resize words n⟩ j = has ⟨words⟩ j := by
  simp only [has, getElem?_resize]
  by_cases h : j / 64 < words.size
  · simp [h]
  · rw [if_neg h, Array.getElem?_eq_none (by omega)]
    by_cases hn : j / 64 < n <;> simp [hn]

theorem has_add (m : Marks) (i j : Nat) : (m.add i).has j = (decide (i = j) || m.has j) := by
  rw [← has_resize m.words (i / 64 + 1) j]
  have hin : i / 64 < (resize m.words (i / 64 + 1)).size := by
    simp only [resize, Array.size_append, Array.size_replicate]; omega
  simp only [has, add, Array.getElem?_modify]
  by_cases hw : i / 64 = j / 64
  · rw [if_pos hw, ← hw, Array.getElem?_eq_getElem hin]
    simp only [Option.map_some, and_bit, UInt64.toNat_or, bit_toNat, Nat.testBit_or,
      Nat.one_shiftLeft, Nat.testBit_two_pow]
    have hij : (i % 64 = j % 64) ↔ i = j := ⟨fun h => by omega, fun h => by rw [h]⟩
    simp only [hij, Bool.or_comm]
  · have hij : i ≠ j := fun h => hw (by rw [h])
    simp [hw, hij]

@[simp] theorem has_empty (i : Nat) : has {} i = false := by
  simp [has]

end Marks
end ObjectMachine
