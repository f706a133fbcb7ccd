import Mathlib.Data.List.Basic
import Mathlib.Data.List.Nodup
import Offload.Toml.Document

/-!
# Keys of a document

A table holds each of its keys once. The statements of a document keep this of the document's table
and of every table within it, however deep, so what a key says does not depend on where it is looked
for.

## Main definitions

* `Within`: whether a value stands within another one.
* `Keyed`: whether each table within a value holds each of its keys once.
* `DocumentReader.Keyed`: whether a reader gives only such tables.

## Main results

* `keyed_read`: the table of a document is keyed.
* `Table.find?_eq_some_iff`: looking for a key finds its only value.
-/

namespace Offload.Toml

/-- Whether a value stands within another one, at any depth. -/
inductive Within (w : Value) : Value → Prop where
  | itself : Within w w
  | item {v : Value} {growing : Bool} {items : List Value} : v ∈ items → Within w v →
      Within w (.array growing items)
  | entry {key : String} {v : Value} {t : Table} : (key, v) ∈ t.entries → Within w v →
      Within w (.table t)

/-- The keys of a table. -/
def Table.keys (t : Table) : List String :=
  t.entries.map Prod.fst

/-- Whether each table within a value holds each of its keys once. -/
def Keyed (v : Value) : Prop :=
  ∀ t : Table, Within (.table t) v → t.keys.Nodup

variable {t t' : Table} {v w : Value} {key : String} {items : List Value} {growing : Bool}

/-! ### Looking for keys -/

theorem Table.mem_of_find? (h : t.find? key = some v) : (key, v) ∈ t.entries := by
  obtain ⟨before, after, heq, -⟩ := List.lookup_eq_some_iff.mp h
  rw [heq]
  exact List.mem_append_right _ List.mem_cons_self

theorem Table.find?_eq_none_iff : t.find? key = none ↔ key ∉ t.keys := by
  rw [find?, List.lookup_eq_none_iff, keys, List.mem_map]
  constructor
  · rintro h ⟨entry, hentry, rfl⟩
    simpa using h entry hentry
  · intro h entry hentry
    simpa using fun heq => h ⟨entry, hentry, heq.symm⟩

/-- In a table that holds each key once, a key has one value. -/
theorem Table.eq_of_mem (ht : t.keys.Nodup) (hv : (key, v) ∈ t.entries)
    (hw : (key, w) ∈ t.entries) : v = w :=
  congrArg Prod.snd (List.inj_on_of_nodup_map ht hv hw rfl)

/-- **Looking for a key** finds its only value. -/
theorem Table.find?_eq_some_iff (ht : t.keys.Nodup) :
    t.find? key = some v ↔ (key, v) ∈ t.entries := by
  refine ⟨mem_of_find?, fun hmem => ?_⟩
  cases hfind : t.find? key with
  | none => exact absurd (List.mem_map_of_mem hmem) (find?_eq_none_iff.mp hfind)
  | some w => rw [eq_of_mem ht hmem (mem_of_find? hfind)]

/-! ### Building tables -/

theorem keyed_table_iff :
    Keyed (.table t) ↔ t.keys.Nodup ∧ ∀ key v, (key, v) ∈ t.entries → Keyed v := by
  constructor
  · exact fun h => ⟨h t .itself, fun key v hmem u hu => h u (.entry hmem hu)⟩
  · rintro ⟨hkeys, hentries⟩ u hu
    cases hu with
    | itself => exact hkeys
    | entry hmem hu => exact hentries _ _ hmem u hu

theorem keyed_array_iff : Keyed (.array growing items) ↔ ∀ v ∈ items, Keyed v := by
  constructor
  · exact fun h v hmem u hu => h u (.item hmem hu)
  · intro h u hu
    cases hu with
    | item hmem hu => exact h _ hmem u hu

theorem keyed_empty (origin : Origin) : Keyed (.table (.empty origin)) :=
  keyed_table_iff.mpr ⟨List.nodup_nil, by simp [Table.empty, Table.entries]⟩

theorem keyed_become (origin : Origin) (ht : Keyed (.table t)) :
    Keyed (.table (t.become origin)) :=
  keyed_table_iff.mpr ⟨(keyed_table_iff.mp ht).1, (keyed_table_iff.mp ht).2⟩

theorem Keyed.of_find? (ht : Keyed (.table t)) (h : t.find? key = some v) : Keyed v :=
  (keyed_table_iff.mp ht).2 key v (Table.mem_of_find? h)

/-- A key that is given a value is one of the keys once. -/
theorem keyed_put (ht : Keyed (.table t)) (hv : Keyed v) : Keyed (.table (t.put key v)) := by
  obtain ⟨hkeys, hentries⟩ := keyed_table_iff.mp ht
  rw [keyed_table_iff, Table.put]
  split
  · refine ⟨?_, fun k w hmem => ?_⟩
    · -- the keys stay as they are
      refine (congrArg List.Nodup ?_).mpr hkeys
      show List.map Prod.fst (List.map _ t.entries) = List.map Prod.fst t.entries
      rw [List.map_map]
      refine List.map_congr_left fun entry _ => ?_
      simp only [Function.comp_apply]
      split <;> rfl
    · obtain ⟨⟨k', w'⟩, hmem', heq⟩ := List.mem_map.mp hmem
      dsimp only at heq
      split at heq <;> cases heq
      · exact hv
      · exact hentries k w hmem'
  · next hnone =>
    have hnew : key ∉ t.keys := Table.find?_eq_none_iff.mp (by simpa using hnone)
    refine ⟨?_, fun k w hmem => ?_⟩
    · show List.Nodup (List.map Prod.fst (t.entries ++ [(key, v)]))
      rw [List.map_append, List.nodup_append]
      refine ⟨hkeys, List.nodup_singleton _, ?_⟩
      rintro k hk _ hkey rfl
      obtain rfl := List.mem_singleton.mp hkey
      exact hnew hk
    · rcases List.mem_append.mp hmem with hmem | hmem
      · exact hentries k w hmem
      · cases List.mem_singleton.mp hmem
        exact hv

/-- A change that keeps a table keyed keeps the document keyed in which it is made. -/
theorem keyed_within {dotted : Bool} {f : Table → Option Table}
    (hf : ∀ t t', Keyed (.table t) → f t = some t' → Keyed (.table t')) {path : List String}
    (ht : Keyed (.table t)) (h : t.within dotted f path = some t') : Keyed (.table t') := by
  induction path generalizing t t' with
  | nil => exact hf t t' ht h
  | cons key path ih =>
      rw [Table.within] at h
      split at h
      · obtain ⟨sub, hsub, rfl⟩ := Option.map_eq_some_iff.mp h
        exact keyed_put ht (ih (keyed_empty _) hsub)
      · next sub hfind =>
        split at h
        · cases h
        · obtain ⟨sub', hsub, rfl⟩ := Option.map_eq_some_iff.mp h
          exact keyed_put ht (ih (ht.of_find? hfind) hsub)
      · next items hfind =>
        have hitems := keyed_array_iff.mp (ht.of_find? hfind)
        split at h
        · next sub hlast =>
          obtain ⟨sub', hsub, rfl⟩ := Option.map_eq_some_iff.mp h
          refine keyed_put ht (keyed_array_iff.mpr fun v hmem => ?_)
          rcases List.mem_append.mp hmem with hmem | hmem
          · exact hitems v (List.dropLast_subset _ hmem)
          · cases List.mem_singleton.mp hmem
            exact ih (hitems _ (List.mem_of_getLast? hlast)) hsub
        · cases h
      · cases h

theorem keyed_addPair {path : List String} (ht : Keyed (.table t)) (hv : Keyed v)
    (h : t.addPair path v = some t') : Keyed (.table t') := by
  rw [Table.addPair] at h
  split at h
  · cases h
  · refine keyed_within (fun u u' hu hadd => ?_) ht h
    rw [Table.addKey] at hadd
    split at hadd
    · cases hadd
    · split at hadd <;> cases hadd
      exact keyed_put hu hv

theorem keyed_openTable {path : List String} (ht : Keyed (.table t))
    (h : t.openTable path = some t') : Keyed (.table t') := by
  rw [Table.openTable] at h
  split at h
  · cases h
  · refine keyed_within (fun u u' hu hopen => ?_) ht h
    rw [Table.openKey] at hopen
    split at hopen
    · cases hopen
      exact keyed_put hu (keyed_empty _)
    · next sub hfind =>
      split at hopen <;> cases hopen
      exact keyed_put hu (keyed_become _ (hu.of_find? hfind))
    · cases hopen

theorem keyed_addElement {path : List String} (ht : Keyed (.table t))
    (h : t.addElement path = some t') : Keyed (.table t') := by
  rw [Table.addElement] at h
  split at h
  · cases h
  · refine keyed_within (fun u u' hu hgrow => ?_) ht h
    rw [Table.growKey] at hgrow
    split at hgrow
    · cases hgrow
      refine keyed_put hu (keyed_array_iff.mpr fun v hmem => ?_)
      cases List.mem_singleton.mp hmem
      exact keyed_empty _
    · next items hfind =>
      cases hgrow
      refine keyed_put hu (keyed_array_iff.mpr fun v hmem => ?_)
      rcases List.mem_append.mp hmem with hmem | hmem
      · exact keyed_array_iff.mp (hu.of_find? hfind) v hmem
      · cases List.mem_singleton.mp hmem
        exact keyed_empty _
    · cases hgrow

/-- What each step of a fold keeps holds at its end. -/
theorem foldlM_invariant {σ τ : Type} {P : σ → Prop} {f : σ → τ → Option σ} {xs : List τ}
    {a b : σ} (hstep : ∀ a x a', x ∈ xs → P a → f a x = some a' → P a') (ha : P a)
    (h : xs.foldlM f a = some b) : P b := by
  induction xs generalizing a with
  | nil =>
      cases h
      exact ha
  | cons x xs ih =>
      rw [List.foldlM_cons] at h
      obtain ⟨a', hx, hrest⟩ := Option.bind_eq_some_iff.mp h
      exact ih (fun a x a' hmem => hstep a x a' (List.mem_cons_of_mem _ hmem))
        (hstep a x a' List.mem_cons_self ha hx) hrest

theorem keyed_ofPairs {pairs : List (List String × Value)} (hpairs : ∀ pair ∈ pairs, Keyed pair.2)
    (h : Table.ofPairs pairs = some t) : Keyed (.table t) := by
  obtain ⟨u, hfold, rfl⟩ := Option.map_eq_some_iff.mp h
  refine keyed_become _ (foldlM_invariant (P := fun u => Keyed (.table u)) ?_ (keyed_empty _) hfold)
  exact fun u pair u' hmem hu hadd => keyed_addPair hu (hpairs pair hmem) hadd

/-! ### Reading -/

/-- A word is neither an array nor a table. -/
theorem keyed_word {cs : List Char} (h : word? cs = some v) : Keyed v := by
  simp only [word?, Option.orElse_eq_orElse, Option.orElse_eq_or, Option.or_eq_some_iff] at h
  intro t ht
  rcases h with h | ⟨-, h | ⟨-, h | ⟨-, h⟩⟩⟩ <;>
    · obtain ⟨_, -, rfl⟩ := Option.map_eq_some_iff.mp h
      cases ht

/-- What holds of each item that is read holds of all items of a list. -/
theorem forall_of_listed {τ : Type} {P : τ → Prop} {item : Reader τ} {close : Char} {n : Nat}
    {s rest : List Char} {xs : List τ} (hitem : ∀ s x rest, item s = some (x, rest) → P x)
    (h : listed item close n s = some (xs, rest)) : ∀ x ∈ xs, P x := by
  induction n generalizing s xs rest with
  | zero => cases h
  | succ n ih =>
      rw [listed] at h
      obtain ⟨s₁, -, h⟩ := Option.bind_eq_some_iff.mp h
      split at h
      · cases h
      · split at h
        · cases h
          simp
        · obtain ⟨⟨first, s₂⟩, hfirst, h⟩ := Option.bind_eq_some_iff.mp h
          obtain ⟨s₃, -, h⟩ := Option.bind_eq_some_iff.mp h
          have hP := hitem _ _ _ hfirst
          split at h
          · obtain ⟨⟨others, s₄⟩, hothers, h⟩ := Option.bind_eq_some_iff.mp h
            cases h
            exact List.forall_mem_cons.mpr ⟨hP, ih hothers⟩
          · split at h <;> cases h
            simpa using hP
          · cases h

theorem keyed_pair {gap : List Char → Option (List Char)} {value : Reader Value}
    (hvalue : ∀ s v rest, value s = some (v, rest) → Keyed v) {s rest : List Char}
    {pair : List String × Value} (h : pair? gap value s = some (pair, rest)) : Keyed pair.2 := by
  obtain ⟨⟨path, s₁⟩, -, h⟩ := Option.bind_eq_some_iff.mp h
  obtain ⟨s₂, -, h⟩ := Option.bind_eq_some_iff.mp h
  split at h
  · obtain ⟨s₃, -, h⟩ := Option.bind_eq_some_iff.mp h
    obtain ⟨⟨v, s₄⟩, hv, h⟩ := Option.bind_eq_some_iff.mp h
    cases h
    exact hvalue _ _ _ hv
  · cases h

theorem keyed_text {read : Option (List Char × List Char)} {rest : List Char}
    (h : (read.map fun (text, rest) => (Value.text (String.ofList text), rest)) = some (v, rest)) :
    Keyed v := by
  obtain ⟨⟨text, s₁⟩, -, heq⟩ := Option.map_eq_some_iff.mp h
  cases heq
  exact fun t ht => nomatch ht

theorem keyed_wordOf {s rest : List Char} (h : (match splitWord s with
    | (word, rest) => (word? word).map fun v => (v, rest)) = some (v, rest)) : Keyed v := by
  split at h
  obtain ⟨w, hw, heq⟩ := Option.map_eq_some_iff.mp h
  obtain ⟨rfl, -⟩ := Prod.mk.inj heq
  exact keyed_word hw

theorem keyed_value {depth : Nat} {s rest : List Char} (h : value? depth s = some (v, rest)) :
    Keyed v := by
  induction depth using Nat.strongRecOn generalizing s v rest with
  | ind depth ih =>
      unfold value? at h
      split at h
      · exact keyed_text h
      · exact keyed_text h
      · split at h
        · cases h
        · next d =>
          obtain ⟨⟨items, s₁⟩, hitems, heq⟩ := Option.map_eq_some_iff.mp h
          cases heq
          exact keyed_array_iff.mpr
            (forall_of_listed (fun _ _ _ => ih d d.lt_succ_self) hitems)
      · split at h
        · cases h
        · next d =>
          obtain ⟨⟨pairs, s₁⟩, hpairs, h⟩ := Option.bind_eq_some_iff.mp h
          obtain ⟨t, ht, h⟩ := Option.bind_eq_some_iff.mp h
          cases h
          exact keyed_ofPairs
            (forall_of_listed (fun _ _ _ => keyed_pair fun _ _ _ => ih d d.lt_succ_self) hpairs) ht
      · exact keyed_wordOf h

/-- The value that a statement adds, if it adds one, is keyed. -/
def Statement.Keyed : Statement → Prop
  | .pair _ v => Toml.Keyed v
  | .header _ | .element _ => True

theorem keyed_statement {s rest : List Char} {line : Statement}
    (h : statement? s = some (line, rest)) : line.Keyed := by
  unfold statement? at h
  split at h
  · obtain ⟨⟨path, s₁⟩, -, h⟩ := Option.bind_eq_some_iff.mp h
    split at h <;> cases h
    trivial
  · obtain ⟨⟨path, s₁⟩, -, h⟩ := Option.bind_eq_some_iff.mp h
    split at h <;> cases h
    trivial
  · obtain ⟨⟨pair, s₁⟩, hpair, h⟩ := Option.bind_eq_some_iff.mp h
    cases h
    exact keyed_pair (fun _ _ _ => keyed_value) hpair

theorem keyed_statements {n : Nat} {s : List Char} {lines : List Statement}
    (h : statements? n s = some lines) : ∀ line ∈ lines, line.Keyed := by
  induction n generalizing s lines with
  | zero => cases h
  | succ n ih =>
      rw [statements?] at h
      obtain ⟨s₁, -, h⟩ := Option.bind_eq_some_iff.mp h
      split at h
      · cases h
        simp
      · obtain ⟨⟨first, s₂⟩, hfirst, h⟩ := Option.bind_eq_some_iff.mp h
        obtain ⟨s₃, -, h⟩ := Option.bind_eq_some_iff.mp h
        obtain ⟨others, hothers, h⟩ := Option.bind_eq_some_iff.mp h
        cases h
        exact List.forall_mem_cons.mpr ⟨keyed_statement hfirst, ih hothers⟩

theorem keyed_add {d d' : Draft} {line : Statement} (hline : line.Keyed)
    (hd : Keyed (.table d.root)) (h : d.add line = some d') : Keyed (.table d'.root) := by
  cases line with
  | pair path v =>
      obtain ⟨root, hroot, rfl⟩ := Option.map_eq_some_iff.mp h
      exact keyed_within (fun t t' ht hadd => keyed_addPair ht hline hadd) hd hroot
  | header path =>
      obtain ⟨root, hroot, rfl⟩ := Option.map_eq_some_iff.mp h
      exact keyed_openTable hd hroot
  | element path =>
      obtain ⟨root, hroot, rfl⟩ := Option.map_eq_some_iff.mp h
      exact keyed_addElement hd hroot

/-- **A document holds each key once**, and so does every table within it. -/
theorem keyed_read {text : String} (h : read text = some t) : Keyed (.table t) := by
  obtain ⟨lines, hlines, h⟩ := Option.bind_eq_some_iff.mp h
  obtain ⟨d, hd, h⟩ := Option.bind_eq_some_iff.mp h
  cases h
  refine foldlM_invariant (P := fun d : Draft => Keyed (.table d.root)) ?_ (keyed_empty _) hd
  exact fun d line d' hmem hd hadd => keyed_add (keyed_statements hlines line hmem) hd hadd

/-- Whether each table that a reader gives holds each key once, and so does every table within it. -/
def DocumentReader.Keyed (reader : DocumentReader) : Prop :=
  ∀ text t, reader text = some t → Toml.Keyed (.table t)

theorem keyed_reader : DocumentReader.Keyed read :=
  fun _ _ => keyed_read

end Offload.Toml
