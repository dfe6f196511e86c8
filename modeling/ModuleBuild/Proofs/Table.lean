import ModuleBuild.Table
import Mathlib.Data.List.Forall2
import Mathlib.Data.List.Induction
import Mathlib.Logic.Function.Basic

/-!
# Tables and lists without doubles

Adding values unless they are there leaves the first occurrence of each (`appendNew_eq`). A table is told
by its keys and the value of each key (`tabulate`); inserting into such a table changes one value, and
adds the key at the end if it is new. A table made of a list of entries has the keys in the order of
their first occurrences, each with the value of its last (`keys_ofList`, `find?_ofList`).
-/

namespace ModuleBuild

section AppendNew

variable {α : Type} [DecidableEq α]

/-- What is added is the first occurrence of each value that was not there. -/
theorem appendNew_eq (xs ys : List α) :
    appendNew xs ys = xs ++ (ys.filter (· ∉ xs)).eraseDups := by
  induction ys generalizing xs with
  | nil => simp [appendNew]
  | cons y ys ih =>
    rw [appendNew]
    by_cases hy : y ∈ xs
    · rw [if_pos hy, ih, List.filter_cons_of_neg (by simpa using hy)]
    · rw [if_neg hy, ih, List.filter_cons_of_pos (by simpa using hy), List.eraseDups_cons,
        List.append_assoc, List.singleton_append, List.filter_filter]
      congr 4
      funext z
      by_cases hz : z = y
      · simp [hz]
      · simp [hz]

/-- Adding to a list of first occurrences gives the first occurrences of both lists. -/
theorem appendNew_eraseDups (xs ys : List α) :
    appendNew xs.eraseDups ys = (xs ++ ys).eraseDups := by
  rw [appendNew_eq, List.eraseDups_append]
  congr 2
  simp only [List.removeAll, List.mem_eraseDups, List.elem_eq_mem]
  congr 1
  funext z
  simp

/-- The first occurrences in a longer list begin with those in the list. -/
theorem eraseDups_prefix (xs ys : List α) : xs.eraseDups <+: (xs ++ ys).eraseDups := by
  rw [← appendNew_eraseDups, appendNew_eq]
  exact List.prefix_append _ _

/-- Nothing is added for values that are there. -/
theorem appendNew_of_subset {xs ys : List α} (h : ∀ y ∈ ys, y ∈ xs) : appendNew xs ys = xs := by
  rw [appendNew_eq, List.filter_eq_nil_iff.mpr (by simpa using h), List.eraseDups_nil, List.append_nil]

theorem appendNew_append (xs ys zs : List α) :
    appendNew xs (ys ++ zs) = appendNew (appendNew xs ys) zs := by
  induction ys generalizing xs with
  | nil => rfl
  | cons y ys ih =>
    rw [List.cons_append, appendNew, appendNew]
    split
    · exact ih xs
    · exact ih (xs ++ [y])

/-- Where a function tells the values of a list apart, the first occurrences are those of its results. -/
theorem appendNew_map {β : Type} [DecidableEq β] {f : α → β} {xs ys : List α}
    (h : ∀ x ∈ xs ++ ys, ∀ y ∈ xs ++ ys, f x = f y → x = y) :
    appendNew (xs.map f) (ys.map f) = (appendNew xs ys).map f := by
  induction ys generalizing xs with
  | nil => rfl
  | cons y ys ih =>
    have hmem : f y ∈ xs.map f ↔ y ∈ xs := by
      refine ⟨fun hy ↦ ?_, List.mem_map_of_mem⟩
      obtain ⟨x, hx, hxy⟩ := List.mem_map.mp hy
      exact h x (by simp [hx]) y (by simp) hxy ▸ hx
    rw [List.map_cons, appendNew, appendNew]
    by_cases hy : y ∈ xs
    · rw [if_pos (hmem.mpr hy), if_pos hy]
      refine ih fun x hx x' hx' ↦ h x ?_ x' ?_ <;> simp_all [or_left_comm]
    · rw [if_neg (mt hmem.mp hy), if_neg hy, ← List.map_singleton, ← List.map_append]
      exact ih (by simpa using h)

/-- Values are left out of the first occurrences as they are of the list. -/
theorem appendNew_filter (P : α → Bool) (xs ys : List α) :
    appendNew (xs.filter P) (ys.filter P) = (appendNew xs ys).filter P := by
  induction ys generalizing xs with
  | nil => rfl
  | cons y ys ih =>
    rw [appendNew]
    by_cases hP : P y
    · have hmem : y ∈ xs.filter P ↔ y ∈ xs := by simp [hP]
      rw [List.filter_cons_of_pos hP, appendNew]
      by_cases hy : y ∈ xs
      · rw [if_pos (hmem.mpr hy), if_pos hy, ih]
      · rw [if_neg (mt hmem.mp hy), if_neg hy, ← ih, List.filter_append, List.filter_cons_of_pos hP,
          List.filter_nil]
    · rw [List.filter_cons_of_neg hP]
      split
      · exact ih xs
      · rw [← ih, List.filter_append, List.filter_cons_of_neg hP, List.filter_nil, List.append_nil]

theorem nodup_eraseDups (xs : List α) : xs.eraseDups.Nodup := by
  have h := appendNew_eraseDups [] xs
  rw [List.eraseDups_nil, List.nil_append] at h
  exact h ▸ nodup_appendNew List.nodup_nil xs

theorem eraseDups_of_nodup {xs : List α} (h : xs.Nodup) : xs.eraseDups = xs := by
  induction xs with
  | nil => rfl
  | cons x xs ih =>
    obtain ⟨hx, hxs⟩ := List.nodup_cons.mp h
    have hfilter : xs.filter (fun y ↦ !y == x) = xs :=
      List.filter_eq_self.mpr fun y hy ↦ by
        have : y ≠ x := fun hyx ↦ hx (hyx ▸ hy)
        simpa using this
    rw [List.eraseDups_cons, hfilter, ih hxs]

end AppendNew

namespace Table

variable {κ α : Type}

/-- The table of the values of a function at the given keys. -/
def tabulate (ks : List κ) (f : κ → α) : Table κ α := ⟨ks.map fun k ↦ (k, f k)⟩

@[simp] theorem keys_tabulate (ks : List κ) (f : κ → α) : (tabulate ks f).keys = ks := by
  simp [tabulate, keys, Function.comp_def]

@[simp] theorem values_tabulate (ks : List κ) (f : κ → α) : (tabulate ks f).values = ks.map f := by
  simp [tabulate, values, Function.comp_def]

/-- Tables of the values of functions that agree on the keys are the same. -/
theorem tabulate_congr {ks : List κ} {f g : κ → α} (h : ∀ k ∈ ks, f k = g k) :
    tabulate ks f = tabulate ks g := by
  simp only [tabulate, Table.mk.injEq]
  exact List.map_congr_left fun k hk ↦ by rw [h k hk]

variable [DecidableEq κ]

/-- In a table of the values of a function, the value of a key is the function's. -/
theorem find?_tabulate (ks : List κ) (f : κ → α) (k : κ) :
    (tabulate ks f).find? k = if k ∈ ks then some (f k) else none := by
  induction ks with
  | nil => rfl
  | cons k' ks ih =>
    simp only [tabulate, find?, List.map_cons, List.find?_cons, List.mem_cons] at ih ⊢
    by_cases hk : k' = k
    · simp [hk]
    · simpa [hk, Ne.symm hk] using ih

private theorem insertEntry_tabulate {ks : List κ} (hks : ks.Nodup) (f : κ → α) (k : κ) (a : α) :
    insertEntry k a (ks.map fun k ↦ (k, f k)) =
      (appendNew ks [k]).map fun k' ↦ (k', Function.update f k a k') := by
  have hother {ks : List κ} (hk : k ∉ ks) :
      ks.map (fun k' ↦ (k', Function.update f k a k')) = ks.map fun k ↦ (k, f k) :=
    List.map_congr_left fun k' hk' ↦ by
      have hne : k' ≠ k := fun h ↦ hk (h ▸ hk')
      rw [Function.update_of_ne hne]
  induction ks with
  | nil => simp [insertEntry, appendNew]
  | cons k' ks ih =>
    obtain ⟨hk', hks⟩ := List.nodup_cons.mp hks
    by_cases hk : k' = k
    · subst hk
      simp [insertEntry, appendNew, hother hk']
    · have hmem : k ∈ k' :: ks ↔ k ∈ ks := by simp [Ne.symm hk]
      have htail : appendNew (k' :: ks) [k] = k' :: appendNew ks [k] := by
        simp only [appendNew, hmem]
        split <;> rfl
      rw [htail, List.map_cons, List.map_cons, insertEntry, if_neg hk, ih hks,
        Function.update_of_ne hk]

/-- Inserting changes the value of one key, and adds the key at the end if it is new. -/
theorem insert_tabulate {ks : List κ} (hks : ks.Nodup) (f : κ → α) (k : κ) (a : α) :
    (tabulate ks f).insert k a = tabulate (appendNew ks [k]) (Function.update f k a) :=
  congrArg Table.mk (insertEntry_tabulate hks f k a)

private theorem insertEntry_insertEntry (k : κ) (a b : α) (es : List (κ × α)) :
    insertEntry k b (insertEntry k a es) = insertEntry k b es := by
  induction es with
  | nil => simp [insertEntry]
  | cons e es ih => by_cases hk : e.1 = k <;> simp [insertEntry, hk, ih]

/-- Of two values given to a key the second stays. -/
@[simp] theorem insert_insert (t : Table κ α) (k : κ) (a b : α) : (t.insert k a).insert k b = t.insert k b :=
  congrArg Table.mk (insertEntry_insertEntry k a b t.entries)

theorem ofList_append (es es' : List (κ × α)) :
    ofList (es ++ es') = es'.foldl (fun t e ↦ t.insert e.1 e.2) (ofList es) :=
  List.foldl_append

theorem ofList_concat (es : List (κ × α)) (e : κ × α) :
    ofList (es ++ [e]) = (ofList es).insert e.1 e.2 := by
  rw [ofList_append]
  rfl

/-- The keys of a table made of entries, in the order of their first occurrences. -/
theorem keys_ofList (es : List (κ × α)) : (ofList es).keys = (es.map Prod.fst).eraseDups := by
  induction es using List.reverseRecOn with
  | nil => rfl
  | append_singleton es e ih =>
    rw [ofList_concat, keys_insert, ih, List.map_append, ← appendNew_eraseDups]
    rfl

/-- The value of a key in a table made of entries is that of its last occurrence. -/
theorem find?_ofList (es : List (κ × α)) (k : κ) :
    (ofList es).find? k = (es.reverse.find? (·.1 = k)).map Prod.snd := by
  induction es using List.reverseRecOn with
  | nil => rfl
  | append_singleton es e ih =>
    rw [ofList_concat, find?_insert, ih, List.reverse_append, List.reverse_singleton,
      List.singleton_append, List.find?_cons]
    by_cases hk : e.1 = k
    · simp [hk]
    · simp [hk, Ne.symm hk]

/-- If no key comes twice, each has its value. -/
theorem find?_ofList_of_mem {es : List (κ × α)} (hn : (es.map Prod.fst).Nodup) {e : κ × α} (h : e ∈ es) :
    (ofList es).find? e.1 = some e.2 := by
  induction es using List.reverseRecOn with
  | nil => exact absurd h List.not_mem_nil
  | append_singleton es e' ih =>
    rw [List.map_append, List.nodup_append] at hn
    rw [ofList_concat]
    rcases List.mem_append.mp h with h | h
    · have hne : e.1 ≠ e'.1 := hn.2.2 _ (List.mem_map_of_mem h) _ (by simp)
      rw [find?_insert_of_ne _ _ hne, ih hn.1 h]
    · rw [List.mem_singleton.mp h, find?_insert_self]

/-- A key that is not among the entries has no value. -/
theorem find?_ofList_eq_none {es : List (κ × α)} {k : κ} (h : k ∉ es.map Prod.fst) : (ofList es).find? k = none := by
  rw [find?_ofList, Option.map_eq_none_iff, List.find?_eq_none]
  intro e he hk
  exact h (List.mem_map.mpr ⟨e, List.mem_reverse.mp he, by simpa using hk⟩)

/-- The entries of keys that are all different make the table that lists them. -/
theorem ofList_map {ks : List κ} (hks : ks.Nodup) (f : κ → α) :
    ofList (ks.map fun k ↦ (k, f k)) = tabulate ks f := by
  induction ks using List.reverseRecOn with
  | nil => rfl
  | append_singleton ks k ih =>
    have hks' := List.nodup_append.mp hks
    have hk : k ∉ ks := fun h ↦ hks'.2.2 k h k (by simp) rfl
    rw [List.map_append, List.map_singleton, ofList_concat, ih hks'.1, insert_tabulate hks'.1,
      appendNew, if_neg hk, appendNew]
    exact tabulate_congr fun k' _ ↦ by
      by_cases h : k' = k
      · rw [h, Function.update_self]
      · rw [Function.update_of_ne h]

/-- An entry of a table made of entries is one of them. -/
theorem mem_of_mem_ofList {es : List (κ × α)} {e : κ × α} (h : e ∈ (ofList es).entries) : e ∈ es := by
  have hinsert : ∀ (es : List (κ × α)) (k : κ) (a : α), ∀ e ∈ insertEntry k a es,
      e ∈ es ∨ e = (k, a) := by
    intro es k a e he
    induction es with
    | nil => exact .inr (by simpa [insertEntry] using he)
    | cons e' es ih =>
      rw [insertEntry] at he
      split at he
      · rcases List.mem_cons.mp he with rfl | he
        · exact .inr rfl
        · exact .inl (List.mem_cons_of_mem _ he)
      · rcases List.mem_cons.mp he with rfl | he
        · exact .inl List.mem_cons_self
        · exact (ih he).imp_left (List.mem_cons_of_mem _)
  induction es using List.reverseRecOn with
  | nil => simp [ofList, empty] at h
  | append_singleton es e' ih =>
    rw [ofList_concat] at h
    rcases hinsert _ _ _ _ h with h | h
    · exact List.mem_append_left _ (ih h)
    · exact List.mem_append_right _ (by simpa using h)

theorem mem_of_find? {t : Table κ α} {k : κ} {a : α} (h : t.find? k = some a) :
    (k, a) ∈ t.entries := by
  simp only [find?, Option.map_eq_some_iff] at h
  obtain ⟨e, he, rfl⟩ := h
  have hk : e.1 = k := by simpa using List.find?_some he
  exact hk ▸ List.mem_of_find?_eq_some he

private theorem insertEntry_eq_self {k : κ} {a : α} {es : List (κ × α)}
    (h : (es.find? (·.1 = k)).map Prod.snd = some a) : insertEntry k a es = es := by
  induction es with
  | nil => cases h
  | cons e es ih =>
    by_cases hk : e.1 = k
    · have ha : e.2 = a := by simpa [hk] using h
      simp [insertEntry, ← hk, ← ha]
    · rw [insertEntry, if_neg hk, ih (by simpa [hk] using h)]

/-- Giving a key the value that it has changes nothing. -/
theorem insert_eq_self {t : Table κ α} {k : κ} {a : α} (h : t.find? k = some a) : t.insert k a = t :=
  congrArg Table.mk (insertEntry_eq_self h)

theorem mem_keys_of_find? {t : Table κ α} {k : κ} {a : α} (h : t.find? k = some a) : k ∈ t.keys :=
  List.mem_map_of_mem (mem_of_find? h)

/-- In a table without doubled keys an entry is found under its key. -/
theorem find?_of_mem {t : Table κ α} (hn : t.keys.Nodup) {k : κ} {a : α} (h : (k, a) ∈ t.entries) :
    t.find? k = some a := by
  obtain ⟨es⟩ := t
  simp only [keys, find?] at hn h ⊢
  induction es with
  | nil => simp at h
  | cons e es ih =>
    obtain ⟨hnew, hn⟩ := List.nodup_cons.mp hn
    rcases List.mem_cons.mp h with rfl | h
    · simp
    · have hne : e.1 ≠ k := fun heq ↦ hnew (heq ▸ List.mem_map_of_mem h)
      simpa [hne] using ih hn h

theorem find?_map (es : List (κ × α)) {β : Type} (f : α → β) (k : κ) :
    (⟨es.map fun e ↦ (e.1, f e.2)⟩ : Table κ β).find? k = ((⟨es⟩ : Table κ α).find? k).map f := by
  unfold find?
  rw [List.find?_map, Option.map_map, Option.map_map]
  rfl

/-! ### Tables with the same keys -/

section Related

variable {β : Type} {R : α → β → Prop}

/-- Entries with the same key and related values. -/
def RelatedEntry (R : α → β → Prop) (e : κ × α) (e' : κ × β) : Prop := e.1 = e'.1 ∧ R e.2 e'.2

/-- The tables have the same keys in the same order, with related values. -/
def Related (R : α → β → Prop) (t : Table κ α) (u : Table κ β) : Prop :=
  List.Forall₂ (RelatedEntry R) t.entries u.entries

theorem related_insertEntry {es : List (κ × α)} {es' : List (κ × β)} (h : List.Forall₂ (RelatedEntry R) es es')
    (k : κ) {a : α} {b : β} (hab : R a b) :
    List.Forall₂ (RelatedEntry R) (insertEntry k a es) (insertEntry k b es') := by
  induction h with
  | nil => exact .cons ⟨rfl, hab⟩ .nil
  | @cons e e' es es' he hes ih =>
    rw [insertEntry, insertEntry, ← he.1]
    split
    · exact .cons ⟨rfl, hab⟩ hes
    · exact .cons he ih

/-- Tables made of related entries are related. -/
theorem related_ofList {es : List (κ × α)} {es' : List (κ × β)} (h : List.Forall₂ (RelatedEntry R) es es') :
    (ofList es).Related R (ofList es') := by
  have hfold {t : Table κ α} {u : Table κ β} (htu : t.Related R u) :
      (es.foldl (fun t e ↦ t.insert e.1 e.2) t).Related R (es'.foldl (fun t e ↦ t.insert e.1 e.2) u) := by
    induction h generalizing t u with
    | nil => exact htu
    | @cons e e' es es' he _ ih =>
      rw [List.foldl_cons, List.foldl_cons, ← he.1]
      exact ih (related_insertEntry htu e.1 he.2)
  exact hfold .nil

end Related

end Table

end ModuleBuild
