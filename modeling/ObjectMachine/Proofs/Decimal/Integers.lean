import Mathlib.Data.List.TakeWhile
import Mathlib.Tactic.Common
import ObjectMachine.Proofs.Classes.Instances

/-!
# ObjectMachine.Proofs.Decimal.Integers

Integers written in decimal: the texts that denote one, and the conversion of a string to one.

* `Text.whiteSpace`, `Text.Trims` — a text without the white space at its ends.
* `Decimal.Digits`, `Decimal.Numeral` — the grammar: an optional sign, then digits.
* `Decimal.Denotes` — a byte string that is read as an integer.
* `Decimal.readInt_eq_some_iff` — reading accepts what the grammar says, with that value.
* `Decimal.denotes_toString` — the decimal form of an integer denotes it.
* `Vm.int_reads_numerals` — so the constructor of `Int` undoes the display of integers.
-/

namespace ObjectMachine

/-! ## White space at the ends -/

namespace Text

/-- The code points with the Unicode property `White_Space`, one by one. -/
def whiteSpace : List Nat :=
  [0x09, 0x0A, 0x0B, 0x0C, 0x0D, 0x20, 0x85, 0xA0, 0x1680, 0x2000, 0x2001, 0x2002, 0x2003, 0x2004,
    0x2005, 0x2006, 0x2007, 0x2008, 0x2009, 0x200A, 0x2028, 0x2029, 0x202F, 0x205F, 0x3000]

/-- `core` is what is left of `cs` without the white space at both ends. -/
structure Trims (cs core : List Char) : Prop where
  ends : ∃ front back, cs = front ++ core ++ back ∧ (∀ c ∈ front, c.toNat ∈ whiteSpace) ∧
    ∀ c ∈ back, c.toNat ∈ whiteSpace
  first : ∀ c ∈ core.head?, c.toNat ∉ whiteSpace
  last : ∀ c ∈ core.getLast?, c.toNat ∉ whiteSpace

theorem isBlank_iff {c : Char} : isBlank c = true ↔ c.toNat ∈ whiteSpace := by
  simp only [isBlank, whiteSpace, List.mem_cons, List.not_mem_nil, or_false, Bool.or_eq_true,
    Bool.and_eq_true, decide_eq_true_eq, beq_iff_eq]
  omega

variable {cs core front rest : List Char}

/-- What is removed at the front is white space, and the rest does not begin with any. -/
theorem trimStart_split (cs : List Char) :
    (∃ front, cs = front ++ trimStart cs ∧ ∀ c ∈ front, c.toNat ∈ whiteSpace) ∧
      ∀ c ∈ (trimStart cs).head?, c.toNat ∉ whiteSpace := by
  refine ⟨⟨cs.takeWhile isBlank, List.takeWhile_append_dropWhile.symm, fun c hc => ?_⟩,
    fun c hc => ?_⟩
  · exact isBlank_iff.mp (List.mem_takeWhile_imp hc)
  · have hblank := List.head?_dropWhile_not isBlank cs
    rw [show (cs.dropWhile isBlank).head? = some c from hc] at hblank
    exact fun hw => by simp [isBlank_iff.mpr hw] at hblank

theorem trimStart_append (hfront : ∀ c ∈ front, c.toNat ∈ whiteSpace)
    (hrest : ∀ c ∈ rest.head?, c.toNat ∉ whiteSpace) : trimStart (front ++ rest) = rest := by
  have hdrop : trimStart (front ++ rest) = rest.dropWhile isBlank :=
    List.dropWhile_append_of_pos fun c hc => isBlank_iff.mpr (hfront c hc)
  rw [hdrop]
  cases rest with
  | nil => rfl
  | cons c cs => exact List.dropWhile_cons_of_neg fun hblank => hrest c rfl (isBlank_iff.mp hblank)

theorem trims_trim (cs : List Char) : Trims cs (trim cs) := by
  obtain ⟨⟨front, hfront, hblank⟩, hfirst⟩ := trimStart_split cs
  obtain ⟨⟨back, hback, hblank'⟩, hlast⟩ := trimStart_split (trimStart cs).reverse
  have hrest : trimStart cs = trim cs ++ back.reverse := by
    rw [← List.reverse_reverse (trimStart cs), hback, List.reverse_append]
    rfl
  refine ⟨⟨front, back.reverse, ?_, hblank, fun c hc => hblank' c (List.mem_reverse.mp hc)⟩,
    fun c hc => ?_, fun c hc => ?_⟩
  · rw [List.append_assoc, ← hrest]
    exact hfront
  · refine hfirst c ?_
    rw [hrest, List.head?_append, Option.mem_def.mp hc]
    rfl
  · refine hlast c ?_
    rwa [trim, List.getLast?_reverse] at hc

theorem Trims.trim_eq (h : Trims cs core) : trim cs = core := by
  obtain ⟨⟨front, back, rfl, hfront, hback⟩, hfirst, hlast⟩ := h
  cases core with
  | nil =>
    have hall : trimStart (front ++ back ++ []) = [] :=
      trimStart_append (fun c hc => (List.mem_append.mp hc).elim (hfront c) (hback c)) (by simp)
    simp only [List.append_nil] at hall ⊢
    rw [trim, hall]
    rfl
  | cons c cs =>
    have hhead : ∀ d ∈ (c :: cs ++ back).head?, d.toNat ∉ whiteSpace := fun d hd => hfirst d hd
    have hstart : trimStart (front ++ (c :: cs ++ back)) = c :: cs ++ back :=
      trimStart_append hfront hhead
    have hend : trimStart (back.reverse ++ (c :: cs).reverse) = (c :: cs).reverse :=
      trimStart_append (fun d hd => hback d (List.mem_reverse.mp hd))
        fun d hd => hlast d (by rwa [List.head?_reverse] at hd)
    rw [trim, List.append_assoc, hstart, List.reverse_append, hend, List.reverse_reverse]

theorem trim_eq_iff : trim cs = core ↔ Trims cs core :=
  ⟨fun h => h ▸ trims_trim cs, Trims.trim_eq⟩

theorem decode?_eq_some_iff {b : ByteArray} {s : String} : decode? b = some s ↔ s.toUTF8 = b := by
  unfold decode? String.fromUTF8?
  constructor
  · intro h
    split at h
    · exact (Option.some.inj h) ▸ rfl
    · cases h
  · rintro rfl
    rw [String.toUTF8_eq_toByteArray, dif_pos s.isValidUTF8]
    rfl

end Text

/-! ## The grammar -/

namespace Decimal

variable {cs rest : List Char} {n : Nat} {z : Int} {i : Int64} {b : ByteArray}

/-- One or more ASCII digits and the number that they denote; it may begin with zeros. -/
structure Digits (cs : List Char) (n : Nat) : Prop where
  nonempty : cs ≠ []
  digits : ∀ c ∈ cs, c.isDigit = true
  value : Nat.ofDigitChars 10 cs 0 = n

/-- An optional sign and digits, and the integer that they denote. -/
inductive Numeral : List Char → Int → Prop where
  | unsigned {cs : List Char} {n : Nat} : Digits cs n → Numeral cs n
  | plus {cs : List Char} {n : Nat} : Digits cs n → Numeral ('+' :: cs) n
  | minus {cs : List Char} {n : Nat} : Digits cs n → Numeral ('-' :: cs) (-n)

/-- A byte string that is read as an integer: well-formed UTF-8 and, without the white space at its
ends, a numeral of an integer of 64 bits. -/
def Denotes (b : ByteArray) (z : Int) : Prop :=
  ∃ text core, String.toUTF8 text = b ∧ Text.Trims text.toList core ∧ Numeral core z ∧
    -2 ^ 63 ≤ z ∧ z < 2 ^ 63

theorem digit?_eq (c : Char) : digit? c = if c.isDigit then some (c.toNat - 48) else none := by
  have hsame : ('0' ≤ c && c ≤ '9') = c.isDigit := by
    rw [Bool.eq_iff_iff]
    simp [Char.isDigit, Char.le_def]
  rw [digit?, hsame]

theorem digitsFrom_eq (acc : Nat) (cs : List Char) :
    digitsFrom acc cs =
      if cs.all Char.isDigit then some (Nat.ofDigitChars 10 cs acc) else none := by
  induction cs generalizing acc with
  | nil => rfl
  | cons c cs ih =>
    rw [digitsFrom, digit?_eq, List.all_cons, Nat.ofDigitChars_cons]
    cases c.isDigit with
    | true => exact ih _
    | false => rfl

theorem natural?_eq_some_iff : natural? cs = some n ↔ Digits cs n := by
  rw [natural?, digitsFrom_eq]
  cases cs with
  | nil => simpa using fun h : Digits [] n => h.nonempty rfl
  | cons c cs =>
    rw [List.isEmpty_cons, if_neg Bool.false_ne_true]
    split
    case isTrue hall =>
      have hdigits : ∀ d ∈ c :: cs, d.isDigit = true := List.all_eq_true.mp hall
      exact ⟨fun h => ⟨List.cons_ne_nil c cs, hdigits, Option.some.inj h⟩,
        fun h => congrArg some h.value⟩
    case isFalse hall =>
      refine ⟨(fun h => nomatch h), fun h => ?_⟩
      exact (hall (List.all_eq_true.mpr h.digits)).elim

/-- Digits have no sign in front. -/
theorem Digits.sign (h : Digits cs n) : sign cs = (false, cs) := by
  unfold Decimal.sign
  split
  case h_1 => exact absurd (h.digits '-' List.mem_cons_self) (by decide)
  case h_2 => exact absurd (h.digits '+' List.mem_cons_self) (by decide)
  case h_3 => rfl

theorem numeral_iff :
    Numeral cs z ↔ ∃ n, Digits (sign cs).2 n ∧ z = if (sign cs).1 then -(n : Int) else n := by
  constructor
  · rintro (h | h | h)
    · exact ⟨_, by rwa [h.sign], by rw [h.sign]; rfl⟩
    · exact ⟨_, h, rfl⟩
    · exact ⟨_, h, rfl⟩
  · rintro ⟨n, h, rfl⟩
    revert h
    unfold Decimal.sign
    split
    · exact fun h => .minus h
    · exact fun h => .plus h
    · exact fun h => .unsigned h

/-- An integer in range has a representation, and only that one. -/
theorem ofInt_eq_some_iff :
    (if Int64.minValue.toInt ≤ z && z ≤ Int64.maxValue.toInt then some (Int64.ofInt z) else none) =
      some i ↔ i.toInt = z := by
  have hmin : Int64.minValue.toInt = -2 ^ 63 := by decide
  have hmax : Int64.maxValue.toInt = 2 ^ 63 - 1 := by decide
  simp only [hmin, hmax, Bool.and_eq_true, decide_eq_true_eq]
  constructor
  · intro h
    split at h
    case isTrue hz =>
      rw [← Option.some.inj h]
      exact Int64.toInt_ofInt_of_le hz.1 (by omega)
    case isFalse => cases h
  · rintro rfl
    have hle := i.le_toInt
    have hlt := i.toInt_lt
    rw [if_pos ⟨hle, by omega⟩, Int64.ofInt_toInt]

theorem integer?_eq_some_iff : integer? cs = some i ↔ Numeral cs i.toInt := by
  rw [numeral_iff]
  unfold integer?
  cases hn : natural? (sign cs).2 with
  | none =>
    refine ⟨fun h => by simp [hn] at h, ?_⟩
    rintro ⟨n, h, -⟩
    rw [natural?_eq_some_iff.mpr h] at hn
    cases hn
  | some n =>
    have hdigits := natural?_eq_some_iff.mp hn
    have honly : ∀ m, Digits (sign cs).2 m → m = n := fun m hm => by
      have hm := natural?_eq_some_iff.mpr hm
      rw [hn] at hm
      exact (Option.some.inj hm).symm
    simp only [hn]
    rw [ofInt_eq_some_iff]
    constructor
    · exact fun hi => ⟨n, hdigits, hi⟩
    · rintro ⟨m, hm, hi⟩
      rwa [honly m hm] at hi

example : integer? "+007".toList = some 7 := by decide

/-- Reading a byte string as an integer accepts what the grammar says, with that value. -/
theorem readInt_eq_some_iff :
    ((Text.decode? b).bind fun s => integer? (Text.trim s.toList)) = some i ↔
      Denotes b i.toInt := by
  rw [Option.bind_eq_some_iff]
  constructor
  · rintro ⟨s, hs, hi⟩
    exact ⟨s, _, Text.decode?_eq_some_iff.mp hs, Text.trims_trim _, integer?_eq_some_iff.mp hi,
      i.le_toInt, i.toInt_lt⟩
  · rintro ⟨s, core, hs, htrim, hnum, -⟩
    refine ⟨s, Text.decode?_eq_some_iff.mpr hs, ?_⟩
    rw [htrim.trim_eq]
    exact integer?_eq_some_iff.mpr hnum

/-- What is denoted is the value of a 64-bit integer. -/
theorem Denotes.exists_toInt (h : Denotes b z) : ∃ i : Int64, i.toInt = z := by
  obtain ⟨_, _, _, _, _, hle, hlt⟩ := h
  exact ⟨.ofInt z, Int64.toInt_ofInt_of_le hle hlt⟩

/-! ## Writing -/

theorem digits_repr (n : Nat) : Digits n.repr.toList n := by
  rw [Nat.toList_repr]
  exact ⟨Nat.toDigits_ne_nil, fun c hc => Nat.isDigit_of_mem_toDigits (by decide) (by decide) hc,
    Nat.ofDigitChars_ten_toDigits⟩

/-- The decimal form of an integer is a numeral of it. -/
theorem numeral_toString (z : Int) : Numeral (toString z).toList z := by
  rw [show toString z = z.repr from rfl, Int.repr_eq_if]
  split
  case isTrue hz =>
    have h := Numeral.unsigned (digits_repr z.toNat)
    rwa [Int.toNat_of_nonneg hz] at h
  case isFalse hz =>
    have h := Numeral.minus (digits_repr (-z).toNat)
    rw [Int.toNat_of_nonneg (by omega), Int.neg_neg] at h
    rw [String.toList_append]
    exact h

theorem not_whiteSpace_of_isDigit {c : Char} (hc : c.isDigit = true) :
    c.toNat ∉ Text.whiteSpace := by
  simp only [Char.isDigit, ge_iff_le, Bool.and_eq_true, decide_eq_true_eq,
    UInt32.le_iff_toNat_le] at hc
  change 48 ≤ c.toNat ∧ c.toNat ≤ 57 at hc
  simp only [Text.whiteSpace, List.mem_cons, List.not_mem_nil, or_false]
  omega

/-- No character of a numeral is white space. -/
theorem Numeral.not_whiteSpace (h : Numeral cs z) :
    ∀ c ∈ cs, c.toNat ∉ Text.whiteSpace := by
  have hdigits : ∀ {ds : List Char} {n : Nat}, Digits ds n →
      ∀ c ∈ ds, c.toNat ∉ Text.whiteSpace :=
    fun h c hc => not_whiteSpace_of_isDigit (h.digits c hc)
  cases h with
  | unsigned h => exact hdigits h
  | plus h => exact List.forall_mem_cons.mpr ⟨by decide, hdigits h⟩
  | minus h => exact List.forall_mem_cons.mpr ⟨by decide, hdigits h⟩

theorem Numeral.trims (h : Numeral cs z) : Text.Trims cs cs :=
  ⟨⟨[], [], by simp⟩, fun c hc => h.not_whiteSpace c (List.mem_of_head? hc),
    fun c hc => h.not_whiteSpace c (List.mem_of_getLast? hc)⟩

/-- The decimal form of a 64-bit integer is read as it. -/
theorem denotes_toString (i : Int64) : Denotes (toString i.toInt).toUTF8 i.toInt :=
  ⟨_, _, rfl, (numeral_toString i.toInt).trims, numeral_toString i.toInt, i.le_toInt, i.toInt_lt⟩

end Decimal

/-! ## The class of integers -/

namespace Heap

variable {h : Heap} {r : Ref}

/-- A built-in class is there, with its dispatch table. -/
structure Provides (h : Heap) (k : Builtin) : Prop where
  freeList : h.FreeList
  cls : ∃ c, h.cls (k.ref h.id) = .ok c ∧ c.slots = k.slots

theorem Sound.provides (hs : h.Sound) (k : Builtin) : h.Provides k :=
  ⟨hs.freeList, hs.builtin k⟩

theorem Provides.place {k : Builtin} (hp : h.Provides k) (o : Obj) : (h.place o).2.Provides k := by
  obtain ⟨c, hc, hslots⟩ := hp.cls
  obtain ⟨d, hd, -, hsame⟩ := place_keepsClasses hp.freeList o _ c hc
  rw [← place_id h o] at hd
  exact ⟨place_freeList hp.freeList o, d, hd, hsame.trans hslots⟩

theorem Provides.requireSlot {α : Type} {k : Builtin} (hp : h.Provides k) {slot : Slot}
    {pick : Slots → Option α} {f : α} (hf : pick k.slots = some f) :
    h.requireSlot slot pick (k.ref h.id) = .ok f := by
  obtain ⟨c, hc, hslots⟩ := hp.cls
  exact requireSlot_own slot hc (hslots ▸ hf)

/-- The text of an integer, as long as there are levels to write. -/
theorem Provides.display_int (hp : h.Provides .int) (hnesting : h.nesting ≤ maxDisplayDepth)
    {i : Int64} (hr : h.get r = .ok ⟨Builtin.int.ref h.id, .int i⟩) :
    h.display r = .ok (toString i.toInt) := by
  obtain ⟨c, hc, hslots⟩ := hp.cls
  have hstr : c.slots.str = some .int := hslots ▸ rfl
  rw [display, show maxDisplayDepth + 1 - h.nesting = maxDisplayDepth - h.nesting + 1 by omega,
    displayWithin, hr]
  simp only [Bind.bind, Except.bind, hc, hstr]
  rfl

/-- Whether an object is a string with some text. -/
def holdsText (h : Heap) (r : Ref) (text : String) : Bool :=
  okAnd (h.get r) fun o =>
    match o.payload with
    | .str b => b.data == text.toUTF8.data
    | _ => false

theorem get_of_holdsText {text : String} (ht : h.holdsText r text = true) :
    ∃ k, h.get r = .ok ⟨k, .str text.toUTF8⟩ := by
  obtain ⟨⟨k, p⟩, ho, hp⟩ := okAnd_eq_true.mp ht
  cases p with
  | str b =>
    obtain rfl : b = text.toUTF8 := ByteArray.ext (beq_iff_eq.mp hp)
    exact ⟨k, ho⟩
  | _ => cases hp

end Heap

namespace Vm

variable {vm : Vm} {s : Ref} {b : ByteArray} {i : Int64}

open ObjectMachine.Action

/-- A string is converted by reading its bytes. -/
theorem toInt_denotes (hs : vm.heap.payload s = .ok (.str b)) (hi : Decimal.Denotes b i.toInt) :
    toInt s vm = .ok i vm := by
  refine (bind_ok (ofHeap_run hs)).trans ?_
  simp only [Decimal.readInt_eq_some_iff.mpr hi]
  rfl

theorem toInt_refuses (hlive : vm.Live) (hs : vm.heap.payload s = .ok (.str b))
    (hnone : ∀ z, ¬ Decimal.Denotes b z) :
    ∃ name, vm.heap.className s = .ok name ∧
      toInt s vm = .error (.raised (.typeMismatch "int" name)) vm := by
  obtain ⟨k, hk⟩ := Heap.payload_eq_ok_iff.mp hs
  obtain ⟨name, hname⟩ := hlive.heap.className (Heap.contains_of_get hk)
  have hread : ((Text.decode? b).bind fun s => Decimal.integer? (Text.trim s.toList)) = none :=
    Option.eq_none_iff_forall_ne_some.mpr fun i hi => hnone _ (Decimal.readInt_eq_some_iff.mp hi)
  refine ⟨name, hname, (bind_ok (ofHeap_run hs)).trans ?_⟩
  simp only [hread]
  exact bind_ok (ofHeap_run hname)

/-- The constructor of `Int` converts its argument. -/
theorem construct_int (hp : vm.heap.Provides .int) (s : Ref) :
    construct (Builtin.int.ref vm.heap.id) [s] vm =
      (toInt s >>= fun i => alloc (Builtin.int.ref vm.heap.id) (.int i) >>= fun r =>
        pure (.value r)) vm :=
  construct_run (hp.requireSlot rfl) [s]

theorem construct_int_ok (hp : vm.heap.Provides .int) (hi : toInt s vm = .ok i vm) :
    ∃ r vm', construct (Builtin.int.ref vm.heap.id) [s] vm = .ok (.value r) vm' ∧
      vm'.heap.get r = .ok ⟨Builtin.int.ref vm.heap.id, .int i⟩ := by
  obtain ⟨c, hc, -⟩ := hp.cls
  refine ⟨_, { vm with heap := (vm.heap.place ⟨Builtin.int.ref vm.heap.id, .int i⟩).2 }, ?_,
    (Heap.get_place hp.freeList _ _).trans (if_pos rfl)⟩
  rw [construct_int hp, bind_ok hi, bind_ok (alloc_ok (Heap.cls_contains hc) _)]
  rfl

/-- A new object of a built-in class, beside which everything is there as before. -/
theorem new_provides {k : Builtin} (hp : vm.heap.Provides k) (b : Builtin) (p : Payload) :
    ∃ r vm', new b p vm = .ok r vm' ∧ vm'.heap.id = vm.heap.id ∧
      vm'.heap.nesting = vm.heap.nesting ∧ vm'.heap.Provides k ∧
      vm'.heap.get r = .ok ⟨b.ref vm.heap.id, p⟩ :=
  ⟨_, _, new_eq vm b p, Heap.place_id _ _, Heap.place_nesting _ _, hp.place _,
    (Heap.get_place hp.freeList _ _).trans (if_pos rfl)⟩

/-- Reading the text of an integer gives the integer back. -/
theorem construct_int_strOf (hp : vm.heap.Provides .int)
    (hnesting : vm.heap.nesting ≤ maxDisplayDepth)
    (hs : vm.heap.get s = .ok ⟨Builtin.int.ref vm.heap.id, .int i⟩) :
    ∃ text vm₁ r vm₂, strOf s vm = .ok text vm₁ ∧
      construct (Builtin.int.ref vm.heap.id) [text] vm₁ = .ok (.value r) vm₂ ∧
      vm₂.heap.get r = .ok ⟨Builtin.int.ref vm.heap.id, .int i⟩ := by
  have hdisplay : display s vm = .ok (toString i.toInt) vm :=
    ofHeap_run (g := fun h => h.display s) (hp.display_int hnesting hs)
  obtain ⟨x, vm₁, hnew, hid, -, hp₁, hget⟩ :=
    new_provides hp .str (.str (toString i.toInt).toUTF8)
  have hread := toInt_denotes (Heap.payload_eq_ok_iff.mpr ⟨_, hget⟩) (Decimal.denotes_toString i)
  obtain ⟨r, vm₂, hmade, hr⟩ := construct_int_ok hp₁ hread
  rw [hid] at hmade hr
  exact ⟨x, vm₁, r, vm₂, (bind_ok hdisplay).trans hnew, hmade, hr⟩

/-- The constructor of `Int` accepts the strings that denote an integer, with that integer; it
refuses any other string. The text of every integer is among those it accepts. -/
theorem int_reads_numerals (hlive : vm.Live) (hnesting : vm.heap.nesting ≤ maxDisplayDepth) :
    (∀ s k b, vm.heap.get s = .ok ⟨k, .str b⟩ →
      (∀ i : Int64, (∃ r vm', construct (Builtin.int.ref vm.heap.id) [s] vm = .ok (.value r) vm' ∧
          vm'.heap.get r = .ok ⟨Builtin.int.ref vm.heap.id, .int i⟩) ↔
        Decimal.Denotes b i.toInt) ∧
      ((∀ z, ¬ Decimal.Denotes b z) → ∃ name, vm.heap.className s = .ok name ∧
        construct (Builtin.int.ref vm.heap.id) [s] vm =
          .error (.raised (.typeMismatch "int" name)) vm)) ∧
    ∀ i : Int64, ∃ n vm₁ text vm₂ r vm₃, newInt i vm = .ok n vm₁ ∧ strOf n vm₁ = .ok text vm₂ ∧
      construct (Builtin.int.ref vm.heap.id) [text] vm₂ = .ok (.value r) vm₃ ∧
      vm₃.heap.get r = .ok ⟨Builtin.int.ref vm.heap.id, .int i⟩ := by
  have hp := hlive.heap.provides .int
  refine ⟨fun s k b hs => ⟨fun i => ⟨?_, fun hi => ?_⟩, fun hnone => ?_⟩, fun i => ?_⟩
  · rintro ⟨r, vm', hmade, hr⟩
    by_cases hsome : ∃ z, Decimal.Denotes b z
    · obtain ⟨z, hz⟩ := hsome
      obtain ⟨j, rfl⟩ := hz.exists_toInt
      obtain ⟨r', vm'', hmade', hr'⟩ := construct_int_ok hp
        (toInt_denotes (Heap.payload_eq_ok_iff.mpr ⟨k, hs⟩) hz)
      rw [hmade] at hmade'
      cases hmade'
      rw [hr] at hr'
      cases hr'
      exact hz
    · obtain ⟨name, -, hto⟩ := toInt_refuses hlive (Heap.payload_eq_ok_iff.mpr ⟨k, hs⟩)
        fun z hz => hsome ⟨z, hz⟩
      rw [construct_int hp, bind_error hto] at hmade
      cases hmade
  · exact construct_int_ok hp (toInt_denotes (Heap.payload_eq_ok_iff.mpr ⟨k, hs⟩) hi)
  · obtain ⟨name, hname, hto⟩ := toInt_refuses hlive (Heap.payload_eq_ok_iff.mpr ⟨k, hs⟩) hnone
    exact ⟨name, hname, (construct_int hp s).trans (bind_error hto)⟩
  · obtain ⟨n, vm₁, hnew, hid, hsame, hp₁, hn⟩ := new_provides hp .int (.int i)
    rw [← hsame] at hnesting
    rw [← hid] at hn ⊢
    obtain ⟨text, vm₂, r, vm₃, hread⟩ := construct_int_strOf hp₁ hnesting hn
    exact ⟨n, vm₁, text, vm₂, r, vm₃, hnew, hread⟩

/-- The least integer, with zeros in front and white space around it. -/
def lowestNumeral : String := "\u2003-009223372036854775808\n"

/-- One more than the greatest integer. -/
def excessiveNumeral : String := "9223372036854775808"

theorem denotes_lowestNumeral :
    Decimal.Denotes lowestNumeral.toUTF8 Int64.minValue.toInt := by
  have htrim : Text.trim lowestNumeral.toList = "-009223372036854775808".toList := by decide
  have hvalue : Decimal.Digits "009223372036854775808".toList (2 ^ 63) :=
    Decimal.natural?_eq_some_iff.mp (by decide)
  exact ⟨_, _, rfl, Text.trim_eq_iff.mp htrim, .minus hvalue, by decide, by decide⟩

theorem not_denotes_excessiveNumeral (z : Int) :
    ¬ Decimal.Denotes excessiveNumeral.toUTF8 z := by
  intro h
  obtain ⟨i, rfl⟩ := h.exists_toInt
  have hread := Decimal.readInt_eq_some_iff.mpr h
  rw [Text.decode?_eq_some_iff.mpr rfl, Option.bind_some] at hread
  have hnone : Decimal.integer? (Text.trim excessiveNumeral.toList) = none := by decide
  rw [hnone] at hread
  cases hread

/-- The two texts as strings. -/
def numerals : List Session.Deed :=
  [.operate (.bytes lowestNumeral.toUTF8) [], .operate (.bytes excessiveNumeral.toUTF8) []]

/-- The one text is read as the least integer, the other is refused; and the least integer is read
back from its text. -/
theorem int_reads_numerals_extremes :
    ∃ vm : Vm, vm.Live ∧ vm.heap.nesting ≤ maxDisplayDepth ∧
      (∃ k, vm.heap.get ⟨0, 43, 0⟩ = .ok ⟨k, .str lowestNumeral.toUTF8⟩) ∧
      (∃ r vm', construct (Builtin.int.ref vm.heap.id) [⟨0, 43, 0⟩] vm = .ok (.value r) vm' ∧
        vm'.heap.get r = .ok ⟨Builtin.int.ref vm.heap.id, .int Int64.minValue⟩) ∧
      (∃ k, vm.heap.get ⟨0, 44, 0⟩ = .ok ⟨k, .str excessiveNumeral.toUTF8⟩) ∧
      (∃ name, construct (Builtin.int.ref vm.heap.id) [⟨0, 44, 0⟩] vm =
        .error (.raised (.typeMismatch "int" name)) vm) ∧
      ∃ n vm₁ text vm₂ r vm₃, newInt Int64.minValue vm = .ok n vm₁ ∧ strOf n vm₁ = .ok text vm₂ ∧
        construct (Builtin.int.ref vm.heap.id) [text] vm₂ = .ok (.value r) vm₃ ∧
        vm₃.heap.get r = .ok ⟨Builtin.int.ref vm.heap.id, .int Int64.minValue⟩ := by
  have hrun : ((Session.follow? numerals (Session.boot {} {} 0 ⟨0, 0⟩)).bind Session.idle?).any
      (fun vm => vm.heap.holdsText ⟨0, 43, 0⟩ lowestNumeral &&
        vm.heap.holdsText ⟨0, 44, 0⟩ excessiveNumeral &&
        decide (vm.heap.nesting ≤ maxDisplayDepth)) = true := by
    decide +kernel
  obtain ⟨vm, hidle, hrun⟩ := (Option.any_eq_true _ _).mp hrun
  simp only [Bool.and_eq_true, decide_eq_true_eq] at hrun
  obtain ⟨⟨hlow, hhigh⟩, hnesting⟩ := hrun
  obtain ⟨k, hlow⟩ := Heap.get_of_holdsText hlow
  obtain ⟨l, hhigh⟩ := Heap.get_of_holdsText hhigh
  have hreaches : (Session.boot {} {} 0 ⟨0, 0⟩).ReachesBy (fun _ _ => False)
      (fun _ _ _ => True) (.idle vm) := Session.follow?_idle (fun _ _ _ _ => trivial) hidle
  have hlive : vm.Live := (Session.orderly {} {} 0 ⟨0, 0⟩ hreaches.reaches).live
  obtain ⟨hreads, hback⟩ := int_reads_numerals hlive hnesting
  obtain ⟨name, -, hrefused⟩ := (hreads _ l _ hhigh).2 not_denotes_excessiveNumeral
  exact ⟨vm, hlive, hnesting, ⟨k, hlow⟩, ((hreads _ k _ hlow).1 _).mpr denotes_lowestNumeral,
    ⟨l, hhigh⟩, ⟨name, hrefused⟩, hback Int64.minValue⟩

end Vm
end ObjectMachine
