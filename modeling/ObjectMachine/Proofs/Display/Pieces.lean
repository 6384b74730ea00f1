import ObjectMachine.Proofs.Classes.Values

/-!
# ObjectMachine.Proofs.Display.Pieces

The display form of an object as a list of words and of places for other objects.

A display function decides on the words and on the objects between them from the heap alone, before
any of the objects is displayed. So one description serves every way of writing: a printer for the
objects, or a writer that counts levels.

* `StrFn.pieces` — what a display function writes.
* `StrFn.run_eq_pieces` — it runs by writing the pieces one after the other.
* `Heap.shown` — the pieces of an object.
* `Heap.displayWithin_succ` — the text of an object is put together from its pieces.
-/

namespace ObjectMachine

/-- A part of a display form: words, or the display form of an object. -/
inductive Piece where
  | words (text : String)
  | nested (r : Ref)
deriving DecidableEq

namespace Piece

/-- The object that a piece displays. -/
def object? : Piece → Option Ref
  | words _ => none
  | nested r => some r

/-- The pieces one after the other; `print` writes the objects. -/
def render (print : Printer) : List Piece → Except Fatal String
  | [] => return ""
  | words text :: rest => do
    let after ← render print rest
    return text ++ after
  | nested r :: rest => do
    let text ← print r
    let after ← render print rest
    return text ++ after

variable {print : Printer}

theorem render_append (ps qs : List Piece) :
    render print (ps ++ qs) = do
      let before ← render print ps
      let after ← render print qs
      return before ++ after := by
  induction ps with
  | nil => simp only [List.nil_append, render, pure_bind, String.empty_append, bind_pure]
  | cons p ps ih =>
    cases p with
    | words text =>
      simp only [List.cons_append, render, ih, bind_assoc, pure_bind, String.append_assoc]
    | nested r =>
      simp only [List.cons_append, render, ih, bind_assoc, pure_bind, String.append_assoc]

theorem render_words (text : String) : render print [words text] = pure text := by
  simp only [render, pure_bind, String.append_empty]

theorem render_nested (r : Ref) : render print [nested r] = print r := by
  simp only [render, pure_bind, String.append_empty, bind_pure]

theorem render_cons_words {text t : String} {ps : List Piece} :
    render print (words text :: ps) = .ok t ↔ ∃ after, render print ps = .ok after ∧
      text ++ after = t := by
  rw [render]
  cases render print ps with
  | error e => exact ⟨fun h => (by cases h), fun ⟨_, h, _⟩ => (by cases h)⟩
  | ok after =>
    refine ⟨fun h => ⟨after, rfl, Except.ok.inj h⟩, ?_⟩
    rintro ⟨_, ⟨⟩, rfl⟩
    rfl

theorem render_cons_nested {r : Ref} {t : String} {ps : List Piece} :
    render print (nested r :: ps) = .ok t ↔ ∃ text after, print r = .ok text ∧
      render print ps = .ok after ∧ text ++ after = t := by
  rw [render]
  cases print r with
  | error e => exact ⟨fun h => (by cases h), fun ⟨_, _, h, _⟩ => (by cases h)⟩
  | ok text =>
    refine render_cons_words.trans ⟨fun ⟨after, h⟩ => ⟨text, after, rfl, h⟩, ?_⟩
    rintro ⟨_, after, ⟨⟩, h⟩
    exact ⟨after, h⟩

/-- Groups of pieces with a separator between them. -/
theorem render_intercalate (separator : String) (groups : List (List Piece)) :
    render print ([words separator].intercalate groups) = do
      let texts ← groups.mapM (render print)
      return separator.intercalate texts := by
  induction groups with
  | nil => rfl
  | cons ps rest ih =>
    cases rest with
    | nil => simp [List.intercalate]
    | cons qs rest =>
      rw [List.intercalate_cons_cons, render_append, render_append, ih, render_words]
      simp only [List.mapM_cons, bind_assoc, pure_bind, String.intercalate_cons_cons]

end Piece

/-- A key and its value. -/
def entryPieces (entry : Ref × Ref) : List Piece :=
  [.nested entry.1, .words ": ", .nested entry.2]

/-- What a display function writes for an object. What displays no other object is one piece. -/
def StrFn.pieces (f : StrFn) (h : Heap) (r : Ref) (o : Obj) : Except Fatal (List Piece) := do
  match f, o.payload with
  | .array, .array items =>
    return .words "[" :: [.words ", "].intercalate (items.toList.map fun x => [.nested x])
      ++ [.words "]"]
  | .hash, .hash t =>
    return .words "\x7b" :: [.words ", "].intercalate (t.entries.toList.map entryPieces)
      ++ [.words "\x7d"]
  | .var, .var (some v) => return [.words "<var ", .nested v, .words ">"]
  | .error, .error ⟨message, some cause, _⟩ =>
    return [.words ("Error: " ++ message ++ " (caused by "), .nested cause, .words ")"]
  | f, _ =>
    let text ← f.run h (fun _ => return "") r o
    return [.words text]

variable {print : Printer}

theorem displayItems_eq (items : List Ref) :
    displayItems print items =
      Piece.render print ([.words ", "].intercalate (items.map fun x => [.nested x])) := by
  have hitem : Piece.render print ∘ (fun x => [.nested x]) = print :=
    funext Piece.render_nested
  rw [Piece.render_intercalate, List.mapM_map, hitem]
  rfl

theorem displayEntries_eq (entries : List (Ref × Ref)) :
    displayEntries print entries =
      Piece.render print ([.words ", "].intercalate (entries.map entryPieces)) := by
  have hentry : Piece.render print ∘ entryPieces = displayEntry print := funext fun entry => by
    simp only [Function.comp_apply, entryPieces, Piece.render, displayEntry, bind_assoc, pure_bind,
      String.append_empty, String.append_assoc]
  rw [Piece.render_intercalate, List.mapM_map, hentry]
  rfl

/-- Apart from the four forms that display other objects, a display function needs no printer. -/
theorem StrFn.run_plain {f : StrFn} {h : Heap} {r : Ref} {o : Obj} (print' : Printer)
    (harray : ∀ items, f = .array → o.payload = .array items → False)
    (hhash : ∀ t, f = .hash → o.payload = .hash t → False)
    (hvar : ∀ v, f = .var → o.payload = .var (some v) → False)
    (herror : ∀ message cause backtrace, f = .error →
      o.payload = .error ⟨message, some cause, backtrace⟩ → False) :
    f.run h print r o = f.run h print' r o := by
  unfold run
  split
  case h_10 items hp => exact (harray items rfl hp).elim
  case h_12 t hp => exact (hhash t rfl hp).elim
  case h_24 v hp => exact (hvar v rfl hp).elim
  case h_26 e hp =>
    obtain ⟨message, cause, backtrace⟩ := e
    cases cause with
    | none => rfl
    | some c => exact (herror message c backtrace rfl hp).elim
  all_goals rfl

/-- A display function writes its pieces one after the other. -/
theorem StrFn.run_eq_pieces (f : StrFn) (h : Heap) (print : Printer) (r : Ref) (o : Obj) :
    f.run h print r o = f.pieces h r o >>= Piece.render print := by
  unfold pieces
  split
  case h_1 items hp =>
    simp only [run, hp, displayItems_eq, pure_bind, Piece.render_append, Piece.render, bind_assoc,
      String.append_assoc, String.append_empty]
  case h_2 t hp =>
    simp only [run, hp, displayEntries_eq, pure_bind, Piece.render_append, Piece.render, bind_assoc,
      String.append_assoc, String.append_empty]
  case h_3 v hp =>
    simp only [run, hp, pure_bind, Piece.render, bind_assoc, String.append_assoc,
      String.append_empty]
  case h_4 message cause backtrace hp =>
    simp only [run, hp, pure_bind, Piece.render, bind_assoc, String.append_assoc,
      String.append_empty]
  case h_5 harray hhash hvar herror =>
    rw [run_plain (fun _ => return "") harray hhash hvar herror]
    simp only [bind_assoc, pure_bind, Piece.render_words, bind_pure]

namespace Heap

/-- The pieces of an object, which the display function of its own class decides. -/
def shown (h : Heap) (r : Ref) : Except Fatal (List Piece) := do
  let o ← h.get r
  let c ← h.cls o.cls
  match c.slots.str with
  | some f => f.pieces h r o
  | none => throw (.missingSlot c.name .str)

/-- The text of an object, from its pieces. -/
theorem displayWithin_succ (h : Heap) (levels : Nat) (r : Ref) :
    h.displayWithin (levels + 1) r = h.shown r >>= Piece.render (h.displayWithin levels) := by
  unfold displayWithin shown
  rw [bind_assoc]
  refine congrArg _ (funext fun o => ?_)
  rw [bind_assoc]
  refine congrArg _ (funext fun c => ?_)
  cases c.slots.str with
  | none => rfl
  | some f => exact f.run_eq_pieces h _ r o

end Heap
end ObjectMachine
