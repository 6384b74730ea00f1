import Mathlib.Data.ENat.Basic
import ObjectMachine.Proofs.Classes.Instances
import ObjectMachine.Proofs.Display.Pieces

/-!
# ObjectMachine.Proofs.Display.Levels

What the limit of levels does to a display form.

A writer appends to a text and keeps a count of the levels that it is in. An object is written one
level deeper, and the count is set back after it; past the limit an object is an ellipsis. A plain
printer knows no limit, and so it has no text for an object that holds itself.

* `Scribe`, `Heap.write` — the writer.
* `Heap.write_eq` — it ends after boundedly many calls inside one another, with the count it began
  with, and appends the text of the object.
* `Heap.Prints` — the printer whose displays are cut off from some level on, or never.
* `Heap.prints_iff` — the text of an object is the one that is cut off past the limit.
* `Heap.Displays` — the objects that are displayed so many levels deep.
* `Heap.prints_top_iff` — the limit makes no difference if nothing is as deep.
* `Heap.write_truncates` — all together.
-/

namespace ObjectMachine

/-! ## The writer -/

/-- What a writer has: the count of the levels it is in, and the text so far. -/
structure Scribe where
  nesting : Nat
  text : String

namespace Scribe

def append (s : Scribe) (text : String) : Scribe :=
  { s with text := s.text ++ text }

@[simp] theorem append_empty (s : Scribe) : s.append "" = s := by
  simp only [append, String.append_empty]

@[simp] theorem append_append (s : Scribe) (text after : String) :
    (s.append text).append after = s.append (text ++ after) := by
  simp only [append, String.append_assoc]

/-- Appending a text and then what comes after it is appending both at once. -/
theorem map_append (s : Scribe) (text : String) (after : Except Fatal String) :
    after.map (s.append text).append = (do return text ++ (← after)).map s.append := by
  cases after with
  | error e => rfl
  | ok after => exact congrArg Except.ok (s.append_append text after)

end Scribe

/-- Writes pieces one after the other. There is no result if the writing of an object has none. -/
def Piece.writeAll (write : Ref → Scribe → Option (Except Fatal Scribe)) :
    List Piece → Scribe → Option (Except Fatal Scribe)
  | [], s => some (.ok s)
  | .words text :: rest, s => writeAll write rest (s.append text)
  | .nested r :: rest, s =>
    match write r s with
    | some (.ok s) => writeAll write rest s
    | stop => stop

/-- Appends the display form of an object. There is no result if `fuel` calls inside one another
are not enough. -/
def Heap.write (h : Heap) : Nat → Ref → Scribe → Option (Except Fatal Scribe)
  | 0, _, _ => none
  | fuel + 1, r, s =>
    if maxDisplayDepth < s.nesting then some (.ok (s.append "..."))
    else
      match h.shown r with
      | .error e => some (.error e)
      | .ok pieces =>
        match Piece.writeAll (h.write fuel) pieces { s with nesting := s.nesting + 1 } with
        | some (.ok t) => some (.ok { t with nesting := s.nesting })
        | stop => stop

/-- A writer that appends what a printer prints, at some level, does so for pieces too. -/
theorem Piece.writeAll_eq {write : Ref → Scribe → Option (Except Fatal Scribe)} {print : Printer}
    {n : Nat}
    (hwrite : ∀ r s, s.nesting = n → write r s = some ((print r).map s.append))
    (ps : List Piece) (s : Scribe) (hs : s.nesting = n) :
    writeAll write ps s = some ((render print ps).map s.append) := by
  induction ps generalizing s with
  | nil => exact congrArg (fun t => some (Except.ok t)) s.append_empty.symm
  | cons p ps ih =>
    cases p with
    | words text =>
      rw [writeAll, ih (s.append text) hs, s.map_append]
      rfl
    | nested r =>
      rw [writeAll, hwrite r s hs, render]
      cases print r with
      | error e => rfl
      | ok text =>
        show writeAll write ps (s.append text) = _
        rw [ih (s.append text) hs, s.map_append]
        rfl

namespace Heap

variable {h : Heap} {r x : Ref} {n level : Nat} {ps : List Piece} {t : String}

/-- The writer ends for every object, however the heap is linked. It appends the text that the
levels that are left allow, and the count is as before. -/
theorem write_eq (h : Heap) (fuel : Nat) (r : Ref) (s : Scribe)
    (hfuel : maxDisplayDepth + 1 - s.nesting < fuel) :
    h.write fuel r s =
      some ((h.displayWithin (maxDisplayDepth + 1 - s.nesting) r).map s.append) := by
  induction fuel generalizing r s with
  | zero => omega
  | succ fuel ih =>
    by_cases hdeep : maxDisplayDepth < s.nesting
    · rw [write, if_pos hdeep, show maxDisplayDepth + 1 - s.nesting = 0 by omega]
      rfl
    · have hlevels : maxDisplayDepth + 1 - s.nesting =
          maxDisplayDepth + 1 - (s.nesting + 1) + 1 := by omega
      -- every call that is nested begins with the same count, since each before it has set it back
      have hdeeper : ∀ x s', s'.nesting = s.nesting + 1 → h.write fuel x s' =
          some ((h.displayWithin (maxDisplayDepth + 1 - (s.nesting + 1)) x).map s'.append) :=
        fun x s' hs' => by
          rw [← hs']
          exact ih x s' (by omega)
      rw [write, if_neg hdeep, hlevels, displayWithin_succ]
      cases h.shown r with
      | error e => rfl
      | ok ps =>
        simp only [Piece.writeAll_eq hdeeper ps { s with nesting := s.nesting + 1 } rfl]
        show _ = some (Except.map s.append (Piece.render _ ps))
        cases Piece.render _ ps <;> rfl

/-! ## The printers -/

/-- The text of some pieces at a level. An object at a level below the limit is written out, with
its own pieces one level deeper; at the limit and past it an object is an ellipsis. Without a limit,
which is `⊤`, this is the plain printer. -/
inductive Prints (h : Heap) (limit : ℕ∞) : Nat → List Piece → String → Prop where
  | done {level : Nat} : Prints h limit level [] ""
  | words {level : Nat} {ps : List Piece} {text after : String} : Prints h limit level ps after →
      Prints h limit level (.words text :: ps) (text ++ after)
  | cut {level : Nat} {r : Ref} {ps : List Piece} {after : String} : limit ≤ level →
      Prints h limit level ps after → Prints h limit level (.nested r :: ps) ("..." ++ after)
  | nested {level : Nat} {r : Ref} {qs ps : List Piece} {text after : String} : level < limit →
      h.shown r = .ok qs → Prints h limit (level + 1) qs text → Prints h limit level ps after →
      Prints h limit level (.nested r :: ps) (text ++ after)

/-- What is cut off at a limit is written out as many levels deep as there are up to it. -/
theorem Prints.render (hp : h.Prints n level ps t) :
    Piece.render (h.displayWithin (n - level)) ps = .ok t := by
  induction hp with
  | done => rfl
  | words _ ih => exact Piece.render_cons_words.mpr ⟨_, ih, rfl⟩
  | @cut level r ps after hlimit _ ih =>
    have hlevel : n - level = 0 := Nat.sub_eq_zero_of_le (Nat.cast_le.mp hlimit)
    refine Piece.render_cons_nested.mpr ⟨_, _, ?_, ih, rfl⟩
    rw [hlevel]
    rfl
  | @nested level r qs ps text after hlimit hshown _ _ iht iha =>
    have hlt : level < n := Nat.cast_lt.mp hlimit
    have hlevel : n - level = n - (level + 1) + 1 := by omega
    refine Piece.render_cons_nested.mpr ⟨_, _, ?_, iha, rfl⟩
    rw [hlevel, displayWithin_succ, hshown]
    exact iht

/-- Pieces are printed if each object among them is. -/
theorem Prints.of_render {limit : ℕ∞} {print : Printer}
    (hprint : ∀ r text ps after, print r = .ok text → h.Prints limit level ps after →
      h.Prints limit level (.nested r :: ps) (text ++ after))
    (ht : Piece.render print ps = .ok t) : h.Prints limit level ps t := by
  induction ps generalizing t with
  | nil =>
    cases ht
    exact .done
  | cons p ps ih =>
    cases p with
    | words text =>
      obtain ⟨after, hafter, rfl⟩ := Piece.render_cons_words.mp ht
      exact .words (ih hafter)
    | nested r =>
      obtain ⟨text, after, htext, hafter, rfl⟩ := Piece.render_cons_nested.mp ht
      exact hprint r text ps after htext (ih hafter)

/-- What is written out as many levels deep as there are up to a limit is cut off at the limit. -/
theorem prints_of_displayWithin {levels : Nat} (hlevels : n - level = levels)
    (ht : Piece.render (h.displayWithin levels) ps = .ok t) : h.Prints n level ps t := by
  induction levels generalizing level ps t with
  | zero =>
    refine .of_render (fun r text ps after htext hafter => ?_) ht
    cases htext
    exact .cut (Nat.cast_le.mpr (by omega)) hafter
  | succ levels ih =>
    refine .of_render (fun r text ps after htext hafter => ?_) ht
    rw [displayWithin_succ] at htext
    cases hshown : h.shown r with
    | error e =>
      rw [hshown] at htext
      cases htext
    | ok qs =>
      rw [hshown] at htext
      exact .nested (Nat.cast_lt.mpr (by omega)) hshown (ih (by omega) htext) hafter

theorem prints_iff :
    h.Prints n level ps t ↔ Piece.render (h.displayWithin (n - level)) ps = .ok t :=
  ⟨Prints.render, prints_of_displayWithin rfl⟩

/-! ## Shallow objects -/

/-- The display of `r` contains one of `x` that is `k` levels deeper. -/
inductive Displays (h : Heap) : Nat → Ref → Ref → Prop where
  | refl (r : Ref) : Displays h 0 r r
  | step {k : Nat} {r y x : Ref} {ps : List Piece} : h.shown r = .ok ps → .nested y ∈ ps →
      Displays h k y x → Displays h (k + 1) r x

/-- No display among the pieces at a level comes to the limit. -/
def Shallow (h : Heap) (limit level : Nat) (ps : List Piece) : Prop :=
  ∀ y, .nested y ∈ ps → ∀ x, ¬ h.Displays (limit - level) y x

namespace Shallow

variable {limit : Nat} {p : Piece}

theorem tail (hs : h.Shallow limit level (p :: ps)) : h.Shallow limit level ps :=
  fun y hy => hs y (List.mem_cons_of_mem p hy)

/-- An object among the pieces is at a level below the limit. -/
theorem lt (hs : h.Shallow limit level (.nested r :: ps)) : level < limit := by
  by_contra hge
  refine hs r List.mem_cons_self r ?_
  rw [show limit - level = 0 by omega]
  exact .refl r

theorem within {qs : List Piece} (hs : h.Shallow limit level (.nested r :: ps))
    (hr : h.shown r = .ok qs) : h.Shallow limit (level + 1) qs := by
  have hlt := hs.lt
  intro y hy x hx
  refine hs r List.mem_cons_self x ?_
  rw [show limit - level = limit - (level + 1) + 1 by omega]
  exact .step hr hy hx

end Shallow

/-- Where no display comes to the limit, the limit makes no difference. -/
theorem prints_top_iff {limit : Nat} (hs : h.Shallow limit level ps) :
    h.Prints ⊤ level ps t ↔ h.Prints limit level ps t := by
  constructor
  · intro hp
    induction hp with
    | done => exact .done
    | words _ ih => exact .words (ih hs.tail)
    | cut hlimit => exact absurd hlimit (by simp)
    | nested _ hshown _ _ iht iha =>
      exact .nested (Nat.cast_lt.mpr hs.lt) hshown (iht (hs.within hshown)) (iha hs.tail)
  · intro hp
    induction hp with
    | done => exact .done
    | words _ ih => exact .words (ih hs.tail)
    | cut hlimit => exact absurd (Nat.cast_le.mp hlimit) (Nat.not_le.mpr hs.lt)
    | nested _ hshown _ _ iht iha =>
      exact .nested (ENat.natCast_lt_top _) hshown (iht (hs.within hshown)) (iha hs.tail)

/-- The writer ends for every object, also where objects hold themselves, with the count it began
with and the display form of the object appended. That is what the printer prints that cuts off what
is deeper than the greatest depth. If nothing is that deep, and nothing is counted at the beginning,
it is what the plain printer prints. Only a class that cannot display its instances stops the
writer. -/
theorem write_truncates (h : Heap) (r : Ref) (out : String) :
    (∃ fuel, ∀ more, fuel ≤ more → h.write more r ⟨h.nesting, out⟩ =
      some ((h.display r).map fun text => ⟨h.nesting, out ++ text⟩)) ∧
    (∀ text, h.Prints 65 h.nesting [.nested r] text ↔ h.display r = .ok text) ∧
    (h.nesting = 0 → (∀ x, ¬ h.Displays 65 r x) →
      ∀ text, h.Prints ⊤ 0 [.nested r] text ↔ h.display r = .ok text) ∧
    (h.Displayable → h.contains r = true → ∃ text, h.display r = .ok text) := by
  have hprints : ∀ text, h.Prints (65 : Nat) h.nesting [.nested r] text ↔
      h.display r = .ok text := fun text => by
    rw [prints_iff, Piece.render_nested]
    rfl
  refine ⟨⟨maxDisplayDepth + 2, fun more hmore => ?_⟩, hprints, fun hzero hdisplays text => ?_,
    fun hh hr => hh.displayWithin _ hr⟩
  · exact write_eq h more r ⟨h.nesting, out⟩ (by show _ - h.nesting < more; omega)
  · have hshallow : h.Shallow 65 0 [.nested r] := fun y hy x => by
      obtain rfl : y = r := by simpa using hy
      exact hdisplays x
    rw [prints_top_iff hshallow, ← hprints, hzero]

/-- An array of an error that is caused by a variable that holds the array; and an array of an empty
array. -/
def knot : List Session.Deed :=
  [.operate .var [], .operate (.error "knot") [⟨0, 43, 0⟩], .operate .array [⟨0, 44, 0⟩],
    .operate .writeVar [⟨0, 43, 0⟩, ⟨0, 45, 0⟩], .operate .array [], .operate .array [⟨0, 46, 0⟩]]

/-- Whether the display of an object has places for some others, and for no more. -/
def showsOnly (h : Heap) (r : Ref) (parts : List Ref) : Bool :=
  okAnd (h.shown r) fun ps => ps.filterMap Piece.object? == parts

theorem showsOnly_mem {parts : List Ref} (hs : h.showsOnly r parts = true) :
    ∃ ps, h.shown r = .ok ps ∧ ∀ y, .nested y ∈ ps ↔ y ∈ parts := by
  obtain ⟨ps, hps, hparts⟩ := okAnd_eq_true.mp hs
  refine ⟨ps, hps, fun y => ?_⟩
  rw [← beq_iff_eq.mp hparts, List.mem_filterMap]
  constructor
  · exact fun hy => ⟨_, hy, rfl⟩
  · rintro ⟨p, hp, hy⟩
    cases p with
    | words text => cases hy
    | nested y => exact Option.some.inj hy ▸ hp

theorem Displays.of_showsOnly {k : Nat} {y : Ref} (hs : h.showsOnly r [y] = true)
    (hy : h.Displays k y x) : h.Displays (k + 1) r x := by
  obtain ⟨ps, hps, hparts⟩ := showsOnly_mem hs
  exact .step hps ((hparts y).mpr List.mem_cons_self) hy

theorem Displays.showsOnly {k : Nat} {parts : List Ref} (hs : h.showsOnly r parts = true)
    (hx : h.Displays (k + 1) r x) : ∃ y ∈ parts, h.Displays k y x := by
  obtain ⟨ps, hps, hparts⟩ := showsOnly_mem hs
  cases hx with
  | step hshown hy hx =>
    rw [hps] at hshown
    cases hshown
    exact ⟨_, (hparts _).mp hy, hx⟩

/-- The array that holds itself has a text, which ends; the array of an empty array is printed in
full. -/
theorem write_truncates_knot :
    ∃ h : Heap, h.Displayable ∧ h.nesting = 0 ∧ h.contains ⟨0, 45, 0⟩ = true ∧
      h.Displays 3 ⟨0, 45, 0⟩ ⟨0, 45, 0⟩ ∧
      (∃ text fuel, (∀ more, fuel ≤ more → h.write more ⟨0, 45, 0⟩ ⟨h.nesting, "knot: "⟩ =
          some (.ok ⟨h.nesting, "knot: " ++ text⟩)) ∧
        h.Prints 65 h.nesting [.nested ⟨0, 45, 0⟩] text) ∧
      (∀ x, ¬ h.Displays 65 ⟨0, 47, 0⟩ x) ∧ h.Prints ⊤ 0 [.nested ⟨0, 47, 0⟩] "[[]]" := by
  have hrun : ((Session.follow? knot (Session.boot {} {} 0 ⟨0, 0⟩)).bind Session.idle?).any
      (fun vm => vm.heap.showsOnly ⟨0, 45, 0⟩ [⟨0, 44, 0⟩] &&
        vm.heap.showsOnly ⟨0, 44, 0⟩ [⟨0, 43, 0⟩] && vm.heap.showsOnly ⟨0, 43, 0⟩ [⟨0, 45, 0⟩] &&
        vm.heap.showsOnly ⟨0, 47, 0⟩ [⟨0, 46, 0⟩] && vm.heap.showsOnly ⟨0, 46, 0⟩ [] &&
        okAnd (vm.heap.display ⟨0, 47, 0⟩) (· == "[[]]") &&
        vm.heap.contains ⟨0, 45, 0⟩ && vm.heap.nesting == 0) = true := by
    decide +kernel
  obtain ⟨vm, hidle, hrun⟩ := (Option.any_eq_true _ _).mp hrun
  simp only [Bool.and_eq_true, okAnd_eq_true, beq_iff_eq, exists_eq_right] at hrun
  obtain ⟨⟨⟨⟨⟨⟨⟨harray, herror⟩, hvar⟩, houter⟩, hinner⟩, htext⟩, hlive⟩, hzero⟩ := hrun
  have hreaches : (Session.boot {} {} 0 ⟨0, 0⟩).ReachesBy (fun _ _ => False)
      (fun _ _ _ => True) (.idle vm) := Session.follow?_idle (fun _ _ _ _ => trivial) hidle
  obtain ⟨horderly, hclassed⟩ := Session.classed hreaches
  have hh : vm.heap.Displayable := hclassed.displayable horderly.live.vm_live.heap.closed
  have hshallow : ∀ x, ¬ vm.heap.Displays 65 ⟨0, 47, 0⟩ x := fun x hx => by
    obtain ⟨y, hy, hx⟩ := hx.showsOnly houter
    obtain rfl := List.mem_singleton.mp hy
    obtain ⟨z, hz, -⟩ := hx.showsOnly hinner
    cases hz
  obtain ⟨⟨fuel, hends⟩, hcut, -, hsome⟩ := write_truncates vm.heap ⟨0, 45, 0⟩ "knot: "
  obtain ⟨text, hdisplay⟩ := hsome hh hlive
  rw [hdisplay] at hends
  have hplain := (write_truncates vm.heap ⟨0, 47, 0⟩ "").2.2.1 hzero hshallow
  exact ⟨vm.heap, hh, hzero, hlive, .of_showsOnly harray (.of_showsOnly herror
    (.of_showsOnly hvar (.refl _))), ⟨text, fuel, hends, (hcut text).mpr hdisplay⟩, hshallow,
    (hplain "[[]]").mpr htext⟩

end Heap
end ObjectMachine
