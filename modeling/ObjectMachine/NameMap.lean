/-!
# ObjectMachine.NameMap

Finite maps from names, in the order in which the names were first added.

* `NameMap.find?` — the value of a name.
* `NameMap.insert` — adds a name at the end, or replaces the value of one that is there.
* `NameMap.mem_entries` — without repeated names, the entries are what is found.
* `sortByName` — entries in the order of their names.
-/

namespace ObjectMachine

structure NameMap (α : Type) where
  entries : List (String × α) := []
deriving DecidableEq, Repr

namespace NameMap

variable {α : Type}

instance : Inhabited (NameMap α) := ⟨{}⟩

/-- The value of the first entry with the name. -/
def find? (m : NameMap α) (name : String) : Option α :=
  m.entries.lookup name

def contains (m : NameMap α) (name : String) : Bool :=
  (m.find? name).isSome

/-- Replaces the first entry with the name, or appends one. -/
def insertIn : List (String × α) → String → α → List (String × α)
  | [], name, v => [(name, v)]
  | (n, w) :: rest, name, v =>
    if n = name then (n, v) :: rest else (n, w) :: insertIn rest name v

def insert (m : NameMap α) (name : String) (v : α) : NameMap α :=
  ⟨insertIn m.entries name v⟩

/-- The names, oldest first. -/
def names (m : NameMap α) : List String :=
  m.entries.map Prod.fst

/-- The values, in the order of their names. -/
def values (m : NameMap α) : List α :=
  m.entries.map Prod.snd

def size (m : NameMap α) : Nat :=
  m.entries.length

def isEmpty (m : NameMap α) : Bool :=
  m.entries.isEmpty

/-- Puts an entry in front of the first one whose name is not smaller. -/
def insertByName (e : String × α) : List (String × α) → List (String × α)
  | [] => [e]
  | f :: rest => if f.1 < e.1 then f :: insertByName e rest else e :: f :: rest

/-- Entries in ascending order of their names; entries of one name keep their order. -/
def sortByName : List (String × α) → List (String × α)
  | [] => []
  | e :: rest => insertByName e (sortByName rest)

theorem lookup_insertIn_self (l : List (String × α)) (name : String) (v : α) :
    (insertIn l name v).lookup name = some v := by
  induction l with
  | nil => simp [insertIn]
  | cons e rest ih =>
    obtain ⟨n, w⟩ := e
    by_cases h : n = name
    · simp [insertIn, h]
    · have h' : (name == n) = false := by simpa using fun e => h e.symm
      simp [insertIn, h, List.lookup_cons, h', ih]

theorem lookup_insertIn_ne {l : List (String × α)} {name other : String} {v : α}
    (h : other ≠ name) : (insertIn l name v).lookup other = l.lookup other := by
  have hb : (other == name) = false := by simpa using h
  induction l with
  | nil => simp [insertIn, List.lookup_cons, hb]
  | cons e rest ih =>
    obtain ⟨n, w⟩ := e
    by_cases hn : n = name
    · subst hn
      simp [insertIn, List.lookup_cons, hb]
    · simp [insertIn, hn, List.lookup_cons, ih]

@[simp] theorem find?_insert_self (m : NameMap α) (name : String) (v : α) :
    (m.insert name v).find? name = some v :=
  lookup_insertIn_self m.entries name v

theorem find?_insert_ne {m : NameMap α} {name other : String} {v : α} (h : other ≠ name) :
    (m.insert name v).find? other = m.find? other :=
  lookup_insertIn_ne h

section Names

variable {m : NameMap α} {name other : String} {v : α}

theorem mem_names : name ∈ m.names ↔ ∃ v, m.find? name = some v := by
  constructor
  · intro hmem
    obtain ⟨e, he, rfl⟩ := List.mem_map.mp hmem
    refine Option.ne_none_iff_exists'.mp fun hnone => ?_
    simpa using List.lookup_eq_none_iff.mp hnone e he
  · rintro ⟨v, hv⟩
    obtain ⟨before, after, heq, -⟩ := List.lookup_eq_some_iff.mp hv
    simp [names, heq]

theorem map_fst_insertIn (l : List (String × α)) (name : String) (v : α) :
    (insertIn l name v).map Prod.fst =
      if name ∈ l.map Prod.fst then l.map Prod.fst else l.map Prod.fst ++ [name] := by
  induction l with
  | nil => rfl
  | cons e rest ih =>
    obtain ⟨n, w⟩ := e
    by_cases heq : n = name
    · simp [insertIn, heq]
    · have hne : ¬ name = n := fun h => heq h.symm
      rw [insertIn, if_neg heq, List.map_cons, ih]
      split <;> simp_all

theorem mem_names_insert : other ∈ (m.insert name v).names ↔ other = name ∨ other ∈ m.names := by
  unfold names insert
  rw [map_fst_insertIn]
  split
  · constructor
    · exact .inr
    · rintro (rfl | h) <;> assumption
  · simp [or_comm]

theorem names_insert_nodup (h : m.names.Nodup) : (m.insert name v).names.Nodup := by
  unfold names insert
  rw [map_fst_insertIn]
  split
  · exact h
  · next hnew => exact List.nodup_append.mpr ⟨h, by simp, by
      rintro a ha b hb rfl
      exact hnew (List.mem_singleton.mp hb ▸ ha)⟩

theorem mem_entries_of_find? (h : m.find? name = some v) : (name, v) ∈ m.entries := by
  obtain ⟨before, after, heq, -⟩ := List.lookup_eq_some_iff.mp h
  simp [heq]

/-- The entries of a map without repeated names are what is found in it. -/
theorem mem_entries (h : m.names.Nodup) : (name, v) ∈ m.entries ↔ m.find? name = some v := by
  refine ⟨fun hmem => ?_, mem_entries_of_find?⟩
  obtain ⟨w, hw⟩ := mem_names.mp (List.mem_map_of_mem (f := Prod.fst) hmem)
  obtain ⟨before, after, heq, hbefore⟩ := List.lookup_eq_some_iff.mp hw
  unfold names at h
  rw [heq, List.map_append, List.map_cons] at h
  rw [heq] at hmem
  rcases List.mem_append.mp hmem with hmem | hmem
  · exact absurd (hbefore _ hmem) (by simp)
  rcases List.mem_cons.mp hmem with hmem | hmem
  · rw [hw, (Prod.mk.inj hmem).2]
  · have hnot := (List.nodup_cons.mp (List.nodup_append.mp h).2.1).1
    exact absurd (List.mem_map_of_mem (f := Prod.fst) hmem) hnot

end Names

end NameMap
end ObjectMachine
