import ObjectMachine.Proofs.Assembler.Labels
import ObjectMachine.Proofs.Decimal.Integers

/-!
# ObjectMachine.Proofs.Assembler.Listings

The two written forms of code, and what can be read back from them.

The bytes give back every word. The listing does not: of the operand field it shows the part that
the format of the operation reads, so two words that differ elsewhere look alike. The assembler
leaves the rest of the field zero if the build checks formats, and then listings differ whenever the
code does. A build without the checks puts an argument also where no listing shows it.

* `Instr.ofByteList?` — instructions from their bytes, four at a time.
* `Format.visible`, `Format.operandText` — the part of an operand field that a text shows, and how.
* `Instr.visible`, `Instr.text_eq_iff` — the word as its text has it; texts are the same exactly if
  these words are.
* `CodeUnit.listing_eq_iff` — so it is with the listings of any two units.
* `Assembler.Hides`, `Assembler.finished_visible_iff` — the commands that put something where no
  text shows it.
* `Assembler.code_recoverable` — the result on units.
-/

namespace ObjectMachine

/-! ## Bytes -/

namespace Instr

variable {i : Instr} {is : List Instr} {bytes : List UInt8} {b₀ b₁ b₂ b₃ : UInt8}

/-- The instructions with the given bytes, four for each; `none` if some are left over. -/
def ofByteList? : List UInt8 → Option (List Instr)
  | [] => some []
  | b₀ :: b₁ :: b₂ :: b₃ :: rest => (ofByteList? rest).map (ofBytes b₀ b₁ b₂ b₃ :: ·)
  | _ => none

theorem or_shiftLeft_eq_add {x b k : Nat} (hx : x < 2 ^ k) : x ||| b <<< k = x + b * 2 ^ k := by
  rw [Nat.or_comm, ← Nat.shiftLeft_add_eq_or_of_lt hx, Nat.shiftLeft_eq, Nat.add_comm]

theorem word_ofBytes (b₀ b₁ b₂ b₃ : UInt8) :
    (ofBytes b₀ b₁ b₂ b₃).word.toNat =
      b₀.toNat + b₁.toNat * 2 ^ 8 + b₂.toNat * 2 ^ 16 + b₃.toNat * 2 ^ 24 := by
  have h₀ := b₀.toNat_lt
  have h₁ := b₁.toNat_lt
  have h₂ := b₂.toNat_lt
  have h₃ := b₃.toNat_lt
  have hlow : b₀.toNat + b₁.toNat * 2 ^ 8 < 2 ^ 16 := by omega
  have hmid : b₀.toNat + b₁.toNat * 2 ^ 8 + b₂.toNat * 2 ^ 16 < 2 ^ 24 := by omega
  simp only [ofBytes, UInt32.toNat_or, UInt32.toNat_shiftLeft, UInt8.toNat_toUInt32]
  show b₀.toNat ||| b₁.toNat <<< 8 % 2 ^ 32 ||| b₂.toNat <<< 16 % 2 ^ 32 |||
    b₃.toNat <<< 24 % 2 ^ 32 = _
  -- no byte is shifted out of the word
  rw [Nat.mod_eq_of_lt (a := b₁.toNat <<< 8) (by rw [Nat.shiftLeft_eq]; omega),
    Nat.mod_eq_of_lt (a := b₂.toNat <<< 16) (by rw [Nat.shiftLeft_eq]; omega),
    Nat.mod_eq_of_lt (a := b₃.toNat <<< 24) (by rw [Nat.shiftLeft_eq]; omega)]
  rw [or_shiftLeft_eq_add h₀, or_shiftLeft_eq_add hlow, or_shiftLeft_eq_add hmid]

theorem toBytes_toNat (i : Instr) :
    i.toBytes.map UInt8.toNat = [i.word.toNat % 2 ^ 8, i.word.toNat / 2 ^ 8 % 2 ^ 8,
      i.word.toNat / 2 ^ 16 % 2 ^ 8, i.word.toNat / 2 ^ 24 % 2 ^ 8] := by
  simp only [toBytes, List.map_cons, List.map_nil, UInt32.toNat_toUInt8, UInt32.toNat_shiftRight,
    Nat.shiftRight_eq_div_pow]
  rfl

/-- Four bytes and a word stand for each other. -/
theorem toBytes_eq_iff : i.toBytes = [b₀, b₁, b₂, b₃] ↔ ofBytes b₀ b₁ b₂ b₃ = i := by
  have h₀ := b₀.toNat_lt
  have h₁ := b₁.toNat_lt
  have h₂ := b₂.toNat_lt
  have h₃ := b₃.toNat_lt
  have hi := i.word.toNat_lt
  have hbytes : i.toBytes = [b₀, b₁, b₂, b₃] ↔
      i.toBytes.map UInt8.toNat = [b₀, b₁, b₂, b₃].map UInt8.toNat :=
    (List.map_inj_right fun x y h => UInt8.toNat_inj.mp h).symm
  have hword : ofBytes b₀ b₁ b₂ b₃ = i ↔ (ofBytes b₀ b₁ b₂ b₃).word.toNat = i.word.toNat := by
    rw [UInt32.toNat_inj, Instr.mk.injEq]
  rw [hbytes, hword, toBytes_toNat, word_ofBytes]
  simp only [List.map_cons, List.map_nil, List.cons.injEq, and_true]
  omega

theorem ofByteList?_eq_some_iff : ofByteList? bytes = some is ↔ bytes = is.flatMap toBytes := by
  constructor
  · intro h
    fun_induction ofByteList? bytes generalizing is with
    | case1 =>
      cases h
      rfl
    | case2 b₀ b₁ b₂ b₃ rest ih =>
      obtain ⟨js, hjs, rfl⟩ := Option.map_eq_some_iff.mp h
      rw [List.flatMap_cons, toBytes_eq_iff.mpr rfl, ← ih hjs]
      rfl
    | case3 => cases h
  · rintro rfl
    induction is with
    | nil => rfl
    | cons i is ih =>
      rw [List.flatMap_cons, toBytes, List.cons_append, List.cons_append, List.cons_append,
        List.cons_append, List.nil_append, ofByteList?, ih, Option.map_some, toBytes_eq_iff.mp rfl]

end Instr

theorem CodeUnit.length_bytes (u : CodeUnit) : u.bytes.length = 4 * u.code.size := by
  have hfour : ∀ i : Instr, i.toBytes.length = 4 := fun _ => rfl
  simp [bytes, List.length_flatMap, hfour, Nat.mul_comm]

/-! ## Texts -/

theorem Decimal.toString_inj {m n : Nat} (h : toString m = toString n) : m = n := by
  have hm := digits_repr m
  rw [show m.repr = n.repr from h] at hm
  exact hm.value.symm.trans (digits_repr n).value

theorem Text.hexDigit_inj : ∀ m, m < 16 → ∀ n, n < 16 → hexDigit m = hexDigit n → m = n := by
  decide

theorem Text.hexByte_inj {a b : UInt8} (h : hexByte a = hexByte b) : a = b := by
  have ha := a.toNat_lt
  have hb := b.toNat_lt
  obtain ⟨hhigh, hlow⟩ := List.cons.inj (String.ofList_inj.mp h)
  have hdiv := hexDigit_inj _ (by omega) _ (by omega) hhigh
  have hmod := hexDigit_inj _ (by omega) _ (by omega) (List.cons.inj hlow).1
  apply UInt8.toNat_inj.mp
  omega

section Cutting

variable {c : Char} {xs ys as bs : List Char}

theorem takeWhile_bne_append (hxs : c ∉ xs) (has : ∀ d ∈ as.head?, d = c) :
    (xs ++ as).takeWhile (· != c) = xs := by
  have hall : ∀ d ∈ xs, (d != c) = true := by
    intro d hd
    rw [bne_iff_ne]
    rintro rfl
    exact hxs hd
  rw [List.takeWhile_append_of_pos hall]
  cases as with
  | nil => simp
  | cons d as => simp [has d rfl]

/-- A text is cut at the first `c` in one way only. -/
theorem append_inj_of_notMem (hxs : c ∉ xs) (hys : c ∉ ys) (has : ∀ d ∈ as.head?, d = c)
    (hbs : ∀ d ∈ bs.head?, d = c) (h : xs ++ as = ys ++ bs) : xs = ys ∧ as = bs := by
  have hcut := congrArg (List.takeWhile (· != c)) h
  rw [takeWhile_bne_append hxs has, takeWhile_bne_append hys hbs] at hcut
  subst hcut
  exact ⟨rfl, List.append_cancel_left h⟩

end Cutting

namespace Op

theorem ofMnemonic?_mnemonic (op : Op) : ofMnemonic? op.mnemonic = some op := by
  cases op <;> decide

theorem mnemonic_inj {op op' : Op} (h : op.mnemonic = op'.mnemonic) : op = op' := by
  apply Option.some.inj
  rw [← ofMnemonic?_mnemonic op, h, ofMnemonic?_mnemonic]

theorem blank_notMem_mnemonic (op : Op) : ' ' ∉ op.mnemonic.toList := by
  cases op <;> decide

theorem newline_notMem_mnemonic (op : Op) : '\n' ∉ op.mnemonic.toList := by
  cases op <;> decide

theorem byte_of_ofByte? {b : UInt8} {op : Op} (h : ofByte? b = some op) : op.byte = b := by
  apply UInt8.toNat_inj.mp
  unfold ofByte? at h
  split at h <;> cases h <;> (next hb => exact hb.symm)

end Op

namespace Format

/-- The part of an operand field that a text of the format shows, with zero for the rest. -/
def visible : Format → Nat → Nat
  | .none, _ => 0
  | .args, x => x / 2 ^ 16 * 2 ^ 16
  | .addr, x => x

/-- What a text of the format has of an operand field. -/
def operandText : Format → Nat → String
  | .none, _ => ""
  | .args, x => " " ++ toString (x / 2 ^ 16)
  | .addr, x => " @" ++ toString x

theorem visible_le (f : Format) (x : Nat) : f.visible x ≤ x := by
  cases f with
  | none => exact Nat.zero_le x
  | args => exact Nat.div_mul_le_self x _
  | addr => exact Nat.le_refl x

theorem visible_zero (f : Format) : f.visible 0 = 0 :=
  Nat.le_zero.mp (f.visible_le 0)

theorem operandText_visible (f : Format) (x : Nat) :
    f.operandText (f.visible x) = f.operandText x := by
  cases f with
  | none => rfl
  | args => rw [operandText, operandText, visible, Nat.mul_div_cancel _ (by decide)]
  | addr => rfl

theorem visible_of_operandText {f : Format} {x y : Nat} (h : f.operandText x = f.operandText y) :
    f.visible x = f.visible y := by
  cases f with
  | none => rfl
  | args =>
    have hshown := Decimal.toString_inj ((String.append_right_inj " ").mp h)
    rw [visible, visible, hshown]
  | addr => exact Decimal.toString_inj ((String.append_right_inj " @").mp h)

/-- What follows a mnemonic begins with a blank. -/
theorem head?_operandText (f : Format) (x : Nat) :
    ∀ c ∈ (f.operandText x).toList.head?, c = ' ' := by
  cases f with
  | none => simp [operandText]
  | args => simp [operandText]
  | addr => simp [operandText]

end Format

namespace Instr

variable {i j : Instr} {op op' : Op} {x y : Nat}

theorem text_jumpTo (op : Op) (h : x ≤ maxAddr) :
    (jumpTo op x).text = op.mnemonic ++ op.format.operandText x := by
  simp only [text, op?_jumpTo op h]
  cases hf : op.format with
  | none => simp [Format.operandText]
  | args => simp [Format.operandText, arg1_jumpTo op h, String.append_assoc]
  | addr => simp [Format.operandText, operand_jumpTo op h, String.append_assoc]

/-- The text of a word whose highest byte is not in the table. -/
theorem text_of_bad (h : i.op? = none) :
    i.text = "<bad" ++ (" opcode 0x" ++ Text.hexByte i.opcode ++ ">") := by
  simp only [text, h, ← String.append_assoc]
  rfl

theorem operand_eq_mod (i : Instr) : i.operand = i.word.toNat % 2 ^ 24 := by
  rw [operand, UInt32.toNat_and]
  exact Nat.and_two_pow_sub_one_eq_mod i.word.toNat 24

theorem operand_le (i : Instr) : i.operand ≤ maxAddr := by
  rw [operand_eq_mod]
  exact Nat.le_pred_of_lt (Nat.mod_lt _ (by decide))

/-- Every word of an operation is written as a jump. -/
theorem eq_jumpTo (h : i.op? = some op) : i = jumpTo op i.operand := by
  have hopcode : i.opcode.toNat = i.word.toNat / 2 ^ 24 % 2 ^ 8 := by
    rw [opcode, UInt32.toNat_toUInt8, UInt32.toNat_shiftRight, Nat.shiftRight_eq_div_pow]
    rfl
  have hlt := i.word.toNat_lt
  have hword : i.word = (jumpTo op i.operand).word := by
    apply UInt32.toNat_inj.mp
    rw [word_jumpTo op i.operand_le, Op.byte_of_ofByte? h, hopcode, operand_eq_mod]
    omega
  exact congrArg Instr.mk hword

/-- The word as its text has it: the part of the operand field that the text leaves out is zero. Of
a word whose highest byte is not in the table the text has this byte only. -/
def visible (i : Instr) : Instr :=
  match i.op? with
  | some op => jumpTo op (op.format.visible i.operand)
  | none => ⟨i.opcode.toUInt32 <<< 24⟩

theorem visible_of_bad (h : i.op? = none) : i.visible = ⟨i.opcode.toUInt32 <<< 24⟩ := by
  rw [visible, h]

theorem visible_jumpTo (op : Op) (h : x ≤ maxAddr) :
    (jumpTo op x).visible = jumpTo op (op.format.visible x) := by
  rw [visible, op?_jumpTo op h, operand_jumpTo op h]

theorem opcode_shifted (b : UInt8) : opcode ⟨b.toUInt32 <<< 24⟩ = b := by
  have hlt := b.toNat_lt
  apply UInt8.toNat_inj.mp
  simp only [opcode, UInt32.toNat_toUInt8, UInt32.toNat_shiftRight, UInt32.toNat_shiftLeft,
    UInt8.toNat_toUInt32]
  show (b.toNat <<< 24 % 2 ^ 32) >>> 24 % 2 ^ 8 = b.toNat
  rw [Nat.shiftLeft_eq, Nat.shiftRight_eq_div_pow]
  omega

theorem text_visible (i : Instr) : i.visible.text = i.text := by
  cases h : i.op? with
  | some op =>
    have hle := (op.format.visible_le i.operand).trans i.operand_le
    rw [eq_jumpTo h, visible_jumpTo op i.operand_le, text_jumpTo op hle,
      text_jumpTo op i.operand_le, Format.operandText_visible]
  | none =>
    have hbad : op? ⟨i.opcode.toUInt32 <<< 24⟩ = none := by
      rw [op?, opcode_shifted]
      exact h
    rw [visible_of_bad h, text_of_bad hbad, text_of_bad h, opcode_shifted]

/-- The mnemonic tells the operation, and with it how the rest is to be read. -/
theorem visible_of_text_jumpTo (hx : x ≤ maxAddr) (hy : y ≤ maxAddr)
    (h : (jumpTo op x).text = (jumpTo op' y).text) :
    (jumpTo op x).visible = (jumpTo op' y).visible := by
  rw [text_jumpTo op hx, text_jumpTo op' hy, ← String.toList_inj, String.toList_append,
    String.toList_append] at h
  -- the mnemonic ends at the first blank or with the text
  obtain ⟨hop, hoperand⟩ := append_inj_of_notMem op.blank_notMem_mnemonic
    op'.blank_notMem_mnemonic (Format.head?_operandText _ _) (Format.head?_operandText _ _) h
  obtain rfl := Op.mnemonic_inj (String.toList_inj.mp hop)
  rw [visible_jumpTo op hx, visible_jumpTo op hy,
    Format.visible_of_operandText (String.toList_inj.mp hoperand)]

/-- No operation has the text of a byte outside the table. -/
theorem text_ne_of_bad (hi : i.op? = none) (hj : j.op? = some op) : i.text ≠ j.text := by
  intro h
  have hblank : ' ' ∉ "<bad".toList := by decide
  have hbad : "<bad".toList ≠ op.mnemonic.toList := by cases op <;> decide
  rw [text_of_bad hi, eq_jumpTo hj, text_jumpTo op j.operand_le, ← String.toList_inj] at h
  simp only [String.toList_append, List.append_assoc] at h
  exact hbad (append_inj_of_notMem hblank op.blank_notMem_mnemonic (by simp)
    (Format.head?_operandText _ _) h).1

theorem visible_of_text (h : i.text = j.text) : i.visible = j.visible := by
  cases hi : i.op? with
  | none =>
    cases hj : j.op? with
    | none =>
      rw [text_of_bad hi, text_of_bad hj, String.append_right_inj, String.append_left_inj,
        String.append_right_inj] at h
      rw [visible_of_bad hi, visible_of_bad hj, Text.hexByte_inj h]
    | some op => exact absurd h (text_ne_of_bad hi hj)
  | some op =>
    cases hj : j.op? with
    | none => exact absurd h.symm (text_ne_of_bad hj hi)
    | some op' =>
      rw [eq_jumpTo hi, eq_jumpTo hj] at h ⊢
      exact visible_of_text_jumpTo i.operand_le j.operand_le h

/-- Two texts are the same exactly if the words are where the texts show them. -/
theorem text_eq_iff : i.text = j.text ↔ i.visible = j.visible := by
  refine ⟨visible_of_text, fun h => ?_⟩
  rw [← text_visible i, h, text_visible]

theorem visible_simple (op : Op) : (simple op).visible = simple op := by
  rw [simple_eq_jumpTo, visible_jumpTo op (Nat.zero_le _), Format.visible_zero]

/-- An argument is visible unless the operation has no operand. -/
theorem visible_args_iff {arg : UInt8} :
    (args op arg 0 0).visible = args op arg 0 0 ↔ (op.format = .none → arg = 0) := by
  rw [args_eq_jumpTo, visible_jumpTo op (args_fits arg)]
  cases hf : op.format with
  | none =>
    constructor
    · intro h _
      have hzero : (jumpTo op 0).operand = (jumpTo op (arg.toNat * 2 ^ 16)).operand :=
        congrArg operand h
      rw [operand_jumpTo op (Nat.zero_le _), operand_jumpTo op (args_fits arg)] at hzero
      apply UInt8.toNat_inj.mp
      show arg.toNat = 0
      omega
    · intro h
      rw [h rfl]
      rfl
  | args => simp [Format.visible]
  | addr => simp [Format.visible]

theorem visible_jump (h : op.isJump = true) (hx : x ≤ maxAddr) :
    (jumpTo op x).visible = jumpTo op x := by
  rw [visible_jumpTo op hx, beq_iff_eq.mp h]
  rfl

theorem newline_notMem_text (i : Instr) : '\n' ∉ i.text.toList := by
  have hnumber : ∀ n : Nat, '\n' ∉ (toString n).toList := by
    intro n h
    exact absurd ((Decimal.digits_repr n).digits '\n' h) (by decide)
  unfold text
  split
  · have hdigit : ∀ n, n < 16 → '\n' ≠ Text.hexDigit n := by decide
    have hlt := i.opcode.toNat_lt
    have hhigh := hdigit (i.opcode.toNat / 16) (by omega)
    have hlow := hdigit (i.opcode.toNat % 16) (by omega)
    simp [Text.hexByte, hhigh, hlow]
  · next op _ =>
    have hop := op.newline_notMem_mnemonic
    split
    · exact hop
    · simp [hop, -Nat.toString_eq_repr, hnumber]
    · simp [hop, -Nat.toString_eq_repr, hnumber]

end Instr

/-! ## Listings -/

namespace CodeUnit

theorem listingFrom_cons (start : Nat) (i : Instr) (is : List Instr) :
    listingFrom start (i :: is) =
      ((addressText start).toList ++ ": ".toList) ++
        (i.text.toList ++ '\n' :: listingFrom (start + 1) is) := by
  simp [listingFrom, line]

/-- Each line begins with the same address on both sides and goes to the first newline. -/
theorem listingFrom_eq_iff {is js : List Instr} {start : Nat} :
    listingFrom start is = listingFrom start js ↔
      is.map Instr.visible = js.map Instr.visible := by
  induction is generalizing js start with
  | nil =>
    cases js with
    | nil => simp
    | cons j js => simp [listingFrom, line]
  | cons i is ih =>
    cases js with
    | nil => simp [listingFrom, line]
    | cons j js =>
      rw [listingFrom_cons, listingFrom_cons, List.append_cancel_left_eq, List.map_cons,
        List.map_cons, List.cons.injEq, ← Instr.text_eq_iff, ← @ih js (start + 1)]
      constructor
      · intro h
        obtain ⟨htext, hrest⟩ := append_inj_of_notMem i.newline_notMem_text j.newline_notMem_text
          (by simp) (by simp) h
        exact ⟨String.toList_inj.mp htext, (List.cons.inj hrest).2⟩
      · rintro ⟨htext, hrest⟩
        rw [htext, hrest]

/-- Two listings are the same exactly if the words are where the texts show them. -/
theorem listing_eq_iff {u v : CodeUnit} :
    u.listing = v.listing ↔ u.code.map Instr.visible = v.code.map Instr.visible := by
  rw [listing, listing, String.ofList_inj, listingFrom_eq_iff, ← Array.toList_inj,
    Array.toList_map, Array.toList_map]

/-- Where the texts leave nothing out, the listing tells the code. -/
theorem code_of_listing {u v : CodeUnit} (hu : ∀ i ∈ u.code, i.visible = i)
    (hv : ∀ i ∈ v.code, i.visible = i) (h : u.listing = v.listing) : u.code = v.code := by
  have hcode := listing_eq_iff.mp h
  rwa [Array.map_congr_left hu, Array.map_congr_left hv, Array.map_id', Array.map_id'] at hcode

end CodeUnit

namespace Assembler

variable {a : Assembler} {c : Command} {cs : List Command} {i : Instr} {op : Op} {p l : Nat}
  {name : String} {u : CodeUnit} {checks : Bool}

/-- Some command gives an argument to an operation that has no operand. -/
def Hides (cs : List Command) : Prop :=
  ∃ op arg, .emitArg op arg ∈ cs ∧ op.format = .none ∧ arg ≠ 0

/-- Every other command emits a word that its text shows whole. -/
theorem visible_of_word? (hc : ¬ Hides [c]) (hword : a.word? c = some i) : i.visible = i := by
  cases c with
  | emit op =>
    obtain rfl := Option.some.inj hword
    exact Instr.visible_simple op
  | emitArg op arg =>
    obtain rfl := Option.some.inj hword
    apply Instr.visible_args_iff.mpr
    intro hformat
    by_contra harg
    exact hc ⟨op, arg, List.mem_singleton_self _, hformat, harg⟩
  | call | pushConst | makeClosure | pushName | storeName | getAttr =>
    obtain rfl := Option.some.inj hword
    apply Instr.visible_args_iff.mpr
    rintro ⟨⟩
  | _ => cases hword

theorem JumpsTo.visible (h : a.JumpsTo p op l) (hop : op.isJump = true)
    (hcode : a.unit.code[p]? = some i) : i.visible = i := by
  obtain ⟨addr, hfits, hword⟩ := h.word
  rw [hcode] at hword
  cases hword
  exact Instr.visible_jump hop hfits

theorem Hides.mono {more : List Command} (hsub : cs ⊆ more) (h : Hides cs) : Hides more := by
  obtain ⟨op, arg, hmem, hrest⟩ := h
  exact ⟨op, arg, hsub hmem, hrest⟩

/-- The texts of a finished unit leave nothing out, unless the commands have hidden something. -/
theorem finished_visible_iff (h : assemble name cs checks = .ok u) :
    (∀ i ∈ u.code, i.visible = i) ↔ ¬ Hides cs := by
  obtain ⟨a, hrun, rfl⟩ := applyAll_of_assemble h
  constructor
  · rintro hall ⟨op, arg, hmem, hformat, harg⟩
    obtain ⟨before, b, n, b', hperf⟩ := performs_of_mem hrun hmem
    have hcode := (hperf.word rfl hrun).2
    exact harg (Instr.visible_args_iff.mp (hall _ (Array.mem_of_getElem? hcode)) hformat)
  · intro hnone i hi
    obtain ⟨p, hcode⟩ := Array.getElem?_of_mem hi
    have hp : p < a.here := (Array.getElem?_eq_some_iff.mp hcode).1
    obtain ⟨before, b, c, b', hperf, ⟨w, hword⟩ | ⟨op, l, rfl⟩⟩ := performs_of_lt hrun hp
    · have hw := (hperf.word hword hrun).2
      rw [hcode] at hw
      cases hw
      have hc : [c] ⊆ cs := by
        intro d hd
        exact hperf.1.subset (List.mem_append_right _ hd)
      exact visible_of_word? (fun hhides => hnone (hhides.mono hc)) hword
    · exact (hperf.jumpsTo hrun).visible (isJump_of_jump hperf.2.2) hcode

/-- A build that checks formats lets no command hide anything. -/
theorem not_hides_of_checks (h : assemble name cs = .ok u) : ¬ Hides cs := by
  rintro ⟨op, arg, hmem, hformat, -⟩
  obtain ⟨a, hrun, -⟩ := applyAll_of_assemble h
  obtain ⟨before, b, n, b', hperf⟩ := performs_of_mem hrun hmem
  have hargs : op.format = .args := format_of_emitArg hperf.2.2
  rw [hformat] at hargs
  cases hargs

/-- The bytes of a unit are four for each instruction, and are the only ones that are read as its
code. Two listings are the same exactly if the code is, up to what no text shows. Of a finished unit
the texts show everything unless an operation without operand was given an argument, which a build
that checks formats refuses; so then the listings are the same exactly if the code is. -/
theorem code_recoverable (u v : CodeUnit) :
    u.bytes.length = 4 * u.code.size ∧
    (∀ bytes, Instr.ofByteList? bytes = some u.code.toList ↔ bytes = u.bytes) ∧
    (u.listing = v.listing ↔ u.code.map Instr.visible = v.code.map Instr.visible) ∧
    (∀ checks name cs, assemble name cs checks = .ok u →
      ((∀ i ∈ u.code, i.visible = i) ↔ ¬ Hides cs)) ∧
    ∀ checks name cs checks' name' cs',
      assemble name cs checks = .ok u → assemble name' cs' checks' = .ok v →
      checks = true ∨ ¬ Hides cs → checks' = true ∨ ¬ Hides cs' →
      (u.listing = v.listing ↔ u.code = v.code) := by
  have hshown : ∀ checks name cs w, assemble name cs checks = .ok w →
      checks = true ∨ ¬ Hides cs → ∀ i ∈ w.code, i.visible = i := by
    rintro checks name cs w h (rfl | hnone)
    · exact (finished_visible_iff h).mpr (not_hides_of_checks h)
    · exact (finished_visible_iff h).mpr hnone
  refine ⟨u.length_bytes, fun bytes => Instr.ofByteList?_eq_some_iff, CodeUnit.listing_eq_iff,
    fun _ _ _ => finished_visible_iff, ?_⟩
  intro checks name cs checks' name' cs' hu hv hcs hcs'
  constructor
  · exact CodeUnit.code_of_listing (hshown _ _ _ _ hu hcs) (hshown _ _ _ _ hv hcs')
  · intro hcode
    rw [CodeUnit.listing, CodeUnit.listing, hcode]

/-- A jump ahead that is patched once through its own label and once through the second of two, in a
build that checks formats and in one that does not. -/
theorem code_recoverable_patched :
    let cs : List Command := [.label, .jump .jumpIfFalse 0, .pushName "x", .resolve 0, .emit .ret]
    let cs' : List Command := [.label, .label, .jump .jumpIfFalse 1, .resolve 0,
      .emitArg .pushName 0, .resolve 1, .emit .ret]
    ∃ u v, assemble "f" cs = .ok u ∧ assemble "g" cs' false = .ok v ∧ ¬ Hides cs' ∧
      u.names ≠ v.names ∧
      u.listing = "   0: jump_if_false @2\n   1: push_name 0\n   2: return\n" ∧
      v.listing = u.listing ∧ v.code = u.code ∧
      Instr.ofByteList? [2, 0, 0, 0x12, 0, 0, 0, 0x02, 0, 0, 0, 0x13] = some u.code.toList := by
  intro cs cs'
  let code : Array Instr := #[⟨0x12000002⟩, ⟨0x02000000⟩, ⟨0x13000000⟩]
  let u : CodeUnit := { name := "f", code := code, names := ["x"] }
  let v : CodeUnit := { name := "g", code := code }
  have hu : assemble "f" cs = .ok u := rfl
  have hv : assemble "g" cs' false = .ok v := rfl
  have hnone : ¬ Hides cs' := by
    rintro ⟨op, arg, hmem, -, harg⟩
    simp only [cs', List.mem_cons, reduceCtorEq, Command.emitArg.injEq, List.not_mem_nil,
      false_or, or_false] at hmem
    exact harg hmem.2
  have hlisting : u.listing = "   0: jump_if_false @2\n   1: push_name 0\n   2: return\n" := by
    decide
  have hsame : v.listing = u.listing := by decide
  refine ⟨u, v, hu, hv, hnone, by decide, hlisting, hsame, ?_, ?_⟩
  · exact ((code_recoverable v u).2.2.2.2 _ _ _ _ _ _ hv hu (.inr hnone) (.inl rfl)).mp hsame
  · exact ((code_recoverable u v).2.1 _).mpr (by decide)

/-- Where formats are not checked, two finished units may have the same listing and different code:
the argument of an operation that has none is in no text. -/
theorem code_recoverable_unchecked :
    ¬ ∀ checks name cs u name' cs' v, assemble name cs checks = .ok u →
      assemble name' cs' checks = .ok v → u.listing = v.listing → u.code = v.code := by
  intro hclaim
  have hcode := hclaim false "t" [.emitArg .add 1] { name := "t", code := #[⟨0x40010000⟩] }
    "t" [.emitArg .add 2] { name := "t", code := #[⟨0x40020000⟩] } rfl rfl (by decide)
  exact absurd hcode (by decide)

end Assembler
end ObjectMachine
