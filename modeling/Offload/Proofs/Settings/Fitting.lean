import Offload.Proofs.Toml.Keys
import Offload.Settings.Load

/-!
# Settings that a document gives

Which settings a document gives is told by its entry `runner` alone: a setting that has a value
there is that value, and one that has none keeps its default, whatever the other setting and
unknown keys are. All that is asked of the rest of the document is that no number in it is out of
all bounds.

## Main definitions

* `InBounds`: whether no number within a value is out of all bounds.
* `given?`: the value that an entry `runner` has for a setting.
* `Fits`: whether a document gives these settings.

## Main results

* `ofTable_eq_ok_iff`: the settings in a document are those that it gives.
* `load_eq_ok_none_iff`, `load_eq_unreadable_iff`, `load_eq_malformed_iff`, `load_eq_ok_some_iff`:
  the four outcomes of loading.
-/

namespace Offload.Settings

open Toml (Table Value Within Keyed)

variable {t : Table} {v : Value} {s s₀ : Settings} {key : String}

/-! ### Numbers out of all bounds -/

/-- Whether no number within a value is out of all bounds. -/
structure InBounds (v : Value) : Prop where
  integer : ∀ n, Within (.integer n) v → ∃ k, n = some k ∧ minInt128 ≤ k ∧ k ≤ maxUInt128
  real : ∀ d, Within (.real (.finite d)) v → d.toFloat.isInf = false

theorem inBounds_array_iff {growing : Bool} {items : List Value} :
    InBounds (.array growing items) ↔ ∀ v ∈ items, InBounds v := by
  constructor
  · exact fun h v hmem => ⟨fun n hn => h.integer n (.item hmem hn), fun d hd =>
      h.real d (.item hmem hd)⟩
  · refine fun h => ⟨fun n hn => ?_, fun d hd => ?_⟩
    · cases hn with
      | item hmem hn => exact (h _ hmem).integer n hn
    · cases hd with
      | item hmem hd => exact (h _ hmem).real d hd

theorem inBounds_table_iff :
    InBounds (.table t) ↔ ∀ key v, (key, v) ∈ t.entries → InBounds v := by
  constructor
  · exact fun h key v hmem => ⟨fun n hn => h.integer n (.entry hmem hn), fun d hd =>
      h.real d (.entry hmem hd)⟩
  · refine fun h => ⟨fun n hn => ?_, fun d hd => ?_⟩
    · cases hn with
      | entry hmem hn => exact (h _ _ hmem).integer n hn
    · cases hd with
      | entry hmem hd => exact (h _ _ hmem).real d hd

/-- A value that is neither an array nor a table shows itself if it is in bounds. -/
theorem exists_seen_iff (harray : ∀ growing items, v ≠ .array growing items)
    (htable : ∀ t, v ≠ .table t) : (∃ x, seen v = .ok x) ↔ InBounds v := by
  cases v with
  | array growing items => exact absurd rfl (harray growing items)
  | table t => exact absurd rfl (htable t)
  | boolean _ | text _ | moment _ => exact ⟨fun _ => ⟨nofun, nofun⟩, fun _ => ⟨_, rfl⟩⟩
  | integer n =>
      constructor
      · rintro ⟨x, hx⟩
        refine ⟨fun n' hn => ?_, nofun⟩
        cases hn
        cases n with
        | none => cases hx
        | some k =>
            simp only [seen] at hx
            split at hx
            · next hk => exact ⟨k, rfl, hk⟩
            · cases hx
      · intro h
        obtain ⟨k, rfl, hk⟩ := h.integer n .itself
        exact ⟨.integer k, if_pos hk⟩
  | real r =>
      cases r with
      | infinite _ | notANumber => exact ⟨fun _ => ⟨nofun, nofun⟩, fun _ => ⟨_, rfl⟩⟩
      | finite d =>
          constructor
          · rintro ⟨x, hx⟩
            refine ⟨nofun, fun d' hd => ?_⟩
            cases hd
            simp only [seen] at hx
            split at hx
            · cases hx
            · next hfinite => exact Bool.eq_false_iff.mpr hfinite
          · intro h
            exact ⟨.real (.finite d), if_neg (Bool.eq_false_iff.mp (h.real d .itself))⟩

theorem firstMismatch_eq_none_iff {checks : List (String × Option Mismatch)} :
    firstMismatch checks = none ↔ ∀ check ∈ checks, check.2 = none := by
  rw [firstMismatch, List.findSome?_eq_none_iff]
  exact forall_congr' fun check => imp_congr_left (List.mergeSort_perm checks _).mem_iff

/-- **Overflow.** A value passes unless a number within it is out of all bounds. -/
theorem overflow?_eq_none_iff (v : Value) : overflow? v = none ↔ InBounds v := by
  refine overflow?.induct (fun v => overflow? v = none ↔ InBounds v)
    (fun entries => (∀ check ∈ overflowsOfEntries entries, check.2 = none) ↔
      ∀ key v, (key, v) ∈ entries → InBounds v)
    (fun items => overflowOfItems? items = none ↔ ∀ v ∈ items, InBounds v)
    ?array ?table ?seen ?unseen ?noItems ?item ?noEntries ?entry v
  case array =>
    intro growing items ih
    rw [overflow?, ih, inBounds_array_iff]
  case table =>
    intro origin entries ih
    rw [overflow?, firstMismatch_eq_none_iff, ih, inBounds_table_iff]
    rfl
  case seen =>
    intro v harray htable x hx
    rw [overflow?.eq_3 v harray htable, hx]
    exact iff_of_true rfl ((exists_seen_iff harray fun ⟨_, _⟩ => htable _ _).mp ⟨x, hx⟩)
  case unseen =>
    intro v harray htable m hm
    rw [overflow?.eq_3 v harray htable, hm]
    refine iff_of_false nofun fun h => ?_
    obtain ⟨x, hx⟩ := (exists_seen_iff harray fun ⟨_, _⟩ => htable _ _).mpr h
    cases hm.symm.trans hx
  case noItems => exact iff_of_true rfl nofun
  case item =>
    intro v rest ih ihrest
    rw [overflowOfItems?, Option.or_eq_none_iff, ih, ihrest, List.forall_mem_cons]
  case noEntries => exact iff_of_true nofun nofun
  case entry =>
    intro key v rest ih ihrest
    rw [overflowsOfEntries, List.forall_mem_cons, ih, ihrest]
    constructor
    · rintro ⟨hv, hrest⟩ key' w hmem
      rcases List.mem_cons.mp hmem with heq | hmem
      · cases heq
        exact hv
      · exact hrest key' w hmem
    · exact fun h => ⟨h key v List.mem_cons_self, fun key' w hmem =>
        h key' w (List.mem_cons_of_mem _ hmem)⟩

/-! ### Single values -/

/-- Two computations in a row succeed if both do. -/
theorem bind_eq_ok_iff {ε α β : Type} {x : Except ε α} {f : α → Except ε β} {b : β} :
    x >>= f = .ok b ↔ ∃ a, x = .ok a ∧ f a = .ok b := by
  cases x with
  | error e => exact iff_of_false nofun nofun
  | ok a => exact ⟨fun h => ⟨a, rfl, h⟩, fun ⟨_, ha, h⟩ => by cases ha; exact h⟩

theorem ignored_eq_ok_iff : ignored v = .ok () ↔ InBounds v := by
  rw [ignored, ← overflow?_eq_none_iff]
  cases overflow? v <;> simp

/-- What ignores a value goes on with the settings that it has. -/
theorem passing_eq_ok_iff :
    (do ignored v; .ok s₀ : Except Mismatch Settings) = .ok s ↔ InBounds v ∧ s₀ = s := by
  rw [bind_eq_ok_iff, ← ignored_eq_ok_iff]
  constructor
  · rintro ⟨_, hv, heq⟩
    exact ⟨hv, Except.ok.inj heq⟩
  · rintro ⟨hv, rfl⟩
    exact ⟨(), hv, rfl⟩

theorem seen_eq_text_iff {text : String} : seen v = .ok (.text text) ↔ v = .text text := by
  constructor
  · intro h
    cases v with
    | text _ =>
        cases h
        rfl
    | boolean _ | moment _ | array _ _ | table _ => cases h
    | integer n =>
        cases n with
        | none => cases h
        | some k =>
            simp only [seen] at h
            split at h <;> cases h
    | real r =>
        cases r with
        | infinite _ | notANumber => cases h
        | finite d =>
            simp only [seen] at h
            split at h <;> cases h
  · rintro rfl
    rfl

theorem asText_eq_ok_iff {text : String} : asText v = .ok text ↔ v = .text text := by
  rw [asText, bind_eq_ok_iff, ← seen_eq_text_iff]
  constructor
  · rintro ⟨x, hx, h⟩
    cases x <;> cases h
    exact hx
  · exact fun h => ⟨_, h, rfl⟩

theorem seen_eq_integer_iff {k : Int} :
    seen v = .ok (.integer k) ↔ v = .integer (some k) ∧ minInt128 ≤ k ∧ k ≤ maxUInt128 := by
  constructor
  · intro h
    cases v with
    | integer n =>
        cases n with
        | none => cases h
        | some k' =>
            simp only [seen] at h
            split at h
            · next hk =>
              cases h
              exact ⟨rfl, hk⟩
            · cases h
    | text _ | boolean _ | moment _ | array _ _ | table _ => cases h
    | real r =>
        cases r with
        | infinite _ | notANumber => cases h
        | finite d =>
            simp only [seen] at h
            split at h <;> cases h
  · rintro ⟨rfl, hk⟩
    exact if_pos hk

theorem asSize_eq_ok_iff {n : UInt64} : asSize v = .ok n ↔ v = .integer (some n.toNat) := by
  rw [asSize, bind_eq_ok_iff]
  constructor
  · rintro ⟨x, hx, h⟩
    cases x with
    | boolean _ | real _ | text _ | sequence | map => cases h
    | integer k =>
        obtain ⟨rfl, -⟩ := seen_eq_integer_iff.mp hx
        dsimp only at h
        split at h
        · next hk =>
          cases h
          have hlt : k.toNat < UInt64.size := by
            have hmax := hk.2
            simp only [maxUInt64] at hmax
            show k.toNat < 18446744073709551616
            omega
          rw [UInt64.toNat_ofNat_of_lt' hlt, Int.toNat_of_nonneg hk.1]
        · split at h <;> cases h
  · rintro rfl
    have hlt : n.toNat < 18446744073709551616 := n.toNat_lt
    refine ⟨.integer n.toNat, seen_eq_integer_iff.mpr ⟨rfl, ?_, ?_⟩, ?_⟩
    · simp only [minInt128]
      omega
    · simp only [maxUInt128]
      omega
    · have hsize : 0 ≤ (n.toNat : Int) ∧ (n.toNat : Int) ≤ maxUInt64 := by
        simp only [maxUInt64]
        omega
      simp only [if_pos hsize, Int.toNat_natCast, UInt64.ofNat_toNat]

/-! ### Tables -/

/-- The value that an entry `runner` has for a setting: a table holds it under a key, and an array
at a position. -/
def given? (key : String) (position : Nat) : Value → Option Value
  | .table t => t.find? key
  | .array _ items => items[position]?
  | _ => none

/-- Whether an entry `runner` with this value gives these settings. Either setting is what it is
given or its default, and no other key matters. -/
structure Gives (v : Value) (s : Settings) : Prop where
  composite : (∃ t, v = .table t) ∨ (∃ growing items, v = .array growing items) ∨
    ∃ written, v = .moment written
  threadName : (given? "thread_name" 0 v).elim (s.threadName = defaultThreadName)
    (· = .text s.threadName)
  maxUpdates : (given? "max_updates" 1 v).elim (s.maxUpdates = defaultMaxUpdates)
    (· = .integer (some s.maxUpdates.toNat))
  others : ∀ t, v = .table t → ∀ key w, (key, w) ∈ t.entries → key ≠ "thread_name" →
    key ≠ "max_updates" → InBounds w

/-- Whether a document gives these settings. -/
structure Fits (t : Table) (s : Settings) : Prop where
  runner : (t.find? "runner").elim (s = default) (Gives · s)
  others : ∀ key v, (key, v) ∈ t.entries → key ≠ "runner" → InBounds v

/-- A table is looked at in the order of its keys, but each key says the same there. -/
theorem lookup_sorted (ht : t.keys.Nodup) (key : String) :
    t.sorted.lookup key = t.find? key := by
  have hperm : t.sorted.Perm t.entries := List.mergeSort_perm _ _
  have hsorted : (Table.mk t.origin t.sorted).keys.Nodup := (hperm.map Prod.fst).nodup_iff.mpr ht
  refine Option.ext fun v => ?_
  rw [Table.find?_eq_some_iff ht, ← hperm.mem_iff]
  exact Table.find?_eq_some_iff hsorted

theorem lookup_eq_none {entries : List (String × Value)} (h : key ∉ entries.map Prod.fst) :
    entries.lookup key = none :=
  List.lookup_eq_none_iff.mpr fun _ hentry =>
    bne_iff_ne.mpr fun heq => h (heq ▸ List.mem_map_of_mem hentry)

theorem lookup_cons_ne {entries : List (String × Value)} {other : String} (h : key ≠ other) :
    ((other, v) :: entries).lookup key = entries.lookup key := by
  rw [List.lookup_cons, beq_false_of_ne h]

/-- What the entries of a table say of the keys that are not known, one entry before the rest. -/
theorem forall_entry_iff {known : String → Prop} {entries : List (String × Value)} :
    (∀ k w, (k, w) ∈ (key, v) :: entries → ¬ known k → InBounds w) ↔
      (¬ known key → InBounds v) ∧ ∀ k w, (k, w) ∈ entries → ¬ known k → InBounds w := by
  constructor
  · exact fun h => ⟨h key v List.mem_cons_self, fun k w hmem =>
      h k w (List.mem_cons_of_mem _ hmem)⟩
  · rintro ⟨hv, hrest⟩ k w hmem
    rcases List.mem_cons.mp hmem with heq | hmem
    · cases heq
      exact hv
    · exact hrest k w hmem

/-- The entries of a document, taken in one after the other. -/
theorem foldlM_withSection {entries : List (String × Value)}
    (hkeys : (entries.map Prod.fst).Nodup) :
    entries.foldlM withSection s₀ = .ok s ↔
      (entries.lookup "runner").elim (s = s₀) (ofValue · = .ok s) ∧
        ∀ k w, (k, w) ∈ entries → ¬ k = "runner" → InBounds w := by
  induction entries generalizing s₀ with
  | nil => exact ⟨fun h => ⟨(Except.ok.inj h).symm, nofun⟩, fun h => congrArg _ h.1.symm⟩
  | cons entry entries ih =>
      obtain ⟨key, v⟩ := entry
      obtain ⟨hnew, hkeys⟩ := List.nodup_cons.mp hkeys
      rw [List.foldlM_cons, bind_eq_ok_iff, forall_entry_iff]
      simp only [ih hkeys]
      by_cases hkey : key = "runner"
      · subst hkey
        rw [List.lookup_cons_self, lookup_eq_none hnew]
        constructor
        · rintro ⟨s₁, hv, rfl, hrest⟩
          exact ⟨hv, fun h => absurd rfl h, hrest⟩
        · rintro ⟨hv, -, hrest⟩
          exact ⟨s, hv, rfl, hrest⟩
      · have hstep : ∀ s₁, withSection s₀ (key, v) = .ok s₁ ↔ InBounds v ∧ s₀ = s₁ := by
          intro s₁
          rw [withSection.eq_2 s₀ key v fun h => hkey h]
          exact passing_eq_ok_iff
        rw [lookup_cons_ne (Ne.symm hkey)]
        simp only [hstep]
        constructor
        · rintro ⟨s₁, ⟨hv, rfl⟩, hrest⟩
          exact ⟨hrest.1, fun _ => hv, hrest.2⟩
        · rintro ⟨hrunner, hv, hrest⟩
          exact ⟨s₀, ⟨hv hkey, rfl⟩, hrunner, hrest⟩

theorem withEntry_threadName : withEntry s₀ ("thread_name", v) = .ok s ↔
    ∃ text, v = .text text ∧ { s₀ with threadName := text } = s := by
  rw [withEntry, bind_eq_ok_iff]
  exact exists_congr fun text => by rw [asText_eq_ok_iff, Except.ok.injEq]

theorem withEntry_maxUpdates : withEntry s₀ ("max_updates", v) = .ok s ↔
    ∃ n : UInt64, v = .integer (some n.toNat) ∧ { s₀ with maxUpdates := n } = s := by
  rw [withEntry, bind_eq_ok_iff]
  exact exists_congr fun n => by rw [asSize_eq_ok_iff, Except.ok.injEq]

/-- Any other entry is only looked at for integers that are out of bounds. -/
theorem withEntry_other {key : String} (hname : key ≠ "thread_name") (hsize : key ≠ "max_updates") :
    withEntry s₀ (key, v) = .ok s ↔ InBounds v ∧ s₀ = s := by
  rw [withEntry.eq_3 s₀ key v (fun h => hname h) (fun h => hsize h)]
  exact passing_eq_ok_iff

/-- The entries of a table `runner`, taken in one after the other. -/
theorem foldlM_withEntry {entries : List (String × Value)} (hkeys : (entries.map Prod.fst).Nodup) :
    entries.foldlM withEntry s₀ = .ok s ↔
      (entries.lookup "thread_name").elim (s.threadName = s₀.threadName)
          (· = .text s.threadName) ∧
        (entries.lookup "max_updates").elim (s.maxUpdates = s₀.maxUpdates)
          (· = .integer (some s.maxUpdates.toNat)) ∧
        ∀ k w, (k, w) ∈ entries → ¬ (k = "thread_name" ∨ k = "max_updates") → InBounds w := by
  induction entries generalizing s₀ with
  | nil =>
      constructor
      · intro h
        cases h
        exact ⟨rfl, rfl, nofun⟩
      · rintro ⟨hname, hsize, -⟩
        obtain ⟨name, size⟩ := s
        obtain rfl : name = s₀.threadName := hname
        obtain rfl : size = s₀.maxUpdates := hsize
        rfl
  | cons entry entries ih =>
      obtain ⟨key, v⟩ := entry
      obtain ⟨hnew, hkeys⟩ := List.nodup_cons.mp hkeys
      rw [List.foldlM_cons, bind_eq_ok_iff, forall_entry_iff]
      simp only [ih hkeys]
      by_cases hname : key = "thread_name"
      · subst hname
        rw [List.lookup_cons_self, lookup_eq_none hnew,
          lookup_cons_ne (show "max_updates" ≠ "thread_name" by decide)]
        simp only [withEntry_threadName]
        constructor
        · rintro ⟨s₁, ⟨text, rfl, rfl⟩, hsame, hsize, hrest⟩
          exact ⟨congrArg Value.text hsame.symm, hsize, fun h => absurd (.inl trivial) h, hrest⟩
        · rintro ⟨hv, hsize, -, hrest⟩
          exact ⟨_, ⟨s.threadName, hv, rfl⟩, rfl, hsize, hrest⟩
      · by_cases hsize : key = "max_updates"
        · subst hsize
          rw [List.lookup_cons_self, lookup_eq_none hnew,
            lookup_cons_ne (show "thread_name" ≠ "max_updates" by decide)]
          simp only [withEntry_maxUpdates]
          constructor
          · rintro ⟨s₁, ⟨n, rfl, rfl⟩, hname, hsame, hrest⟩
            exact ⟨hname, hsame ▸ rfl, fun h => absurd (.inr trivial) h, hrest⟩
          · rintro ⟨hname, hv, -, hrest⟩
            exact ⟨_, ⟨s.maxUpdates, hv, rfl⟩, hname, rfl, hrest⟩
        · rw [lookup_cons_ne (Ne.symm hname), lookup_cons_ne (Ne.symm hsize)]
          simp only [withEntry_other hname hsize]
          constructor
          · rintro ⟨s₁, ⟨hv, rfl⟩, hn, hs, hrest⟩
            exact ⟨hn, hs, fun _ => hv, hrest⟩
          · rintro ⟨hn, hs, hv, hrest⟩
            exact ⟨s₀, ⟨hv (not_or.mpr ⟨hname, hsize⟩), rfl⟩, hn, hs, hrest⟩

/-- **An entry `runner`** gives exactly the settings that are read from it. -/
theorem ofValue_eq_ok_iff (hv : Keyed v) : ofValue v = .ok s ↔ Gives v s := by
  cases v with
  | table t =>
      have hkeys := (Toml.keyed_table_iff.mp hv).1
      have hsorted : (t.sorted.map Prod.fst).Nodup :=
        ((List.mergeSort_perm _ _).map Prod.fst).nodup_iff.mpr hkeys
      have hmem : ∀ entry, entry ∈ t.sorted ↔ entry ∈ t.entries :=
        fun _ => (List.mergeSort_perm _ _).mem_iff
      rw [ofValue, foldlM_withEntry hsorted, lookup_sorted hkeys, lookup_sorted hkeys]
      simp only [hmem, not_or, and_imp]
      constructor
      · rintro ⟨hname, hsize, hrest⟩
        refine ⟨.inl ⟨t, rfl⟩, hname, hsize, ?_⟩
        rintro _ ⟨⟩
        exact hrest
      · rintro ⟨-, hname, hsize, hrest⟩
        exact ⟨hname, hsize, hrest t rfl⟩
  | array growing items =>
      have hcomposite : (∃ t, Value.array growing items = .table t) ∨
          (∃ growing' items', Value.array growing items = .array growing' items') ∨
          ∃ written, Value.array growing items = .moment written :=
        .inr (.inl ⟨growing, items, rfl⟩)
      obtain ⟨name, size⟩ := s
      match items with
      | [] =>
          constructor
          · rintro ⟨⟩
            exact ⟨hcomposite, rfl, rfl, nofun⟩
          · rintro ⟨-, hname, hsize, -⟩
            obtain rfl : name = defaultThreadName := hname
            obtain rfl : size = defaultMaxUpdates := hsize
            rfl
      | [first] =>
          rw [ofValue, bind_eq_ok_iff]
          simp only [asText_eq_ok_iff]
          constructor
          · rintro ⟨text, rfl, ⟨⟩⟩
            exact ⟨hcomposite, rfl, rfl, nofun⟩
          · rintro ⟨-, hname, hsize, -⟩
            obtain rfl : size = defaultMaxUpdates := hsize
            exact ⟨name, hname, rfl⟩
      | first :: second :: rest =>
          rw [ofValue, bind_eq_ok_iff]
          simp only [bind_eq_ok_iff, asText_eq_ok_iff, asSize_eq_ok_iff]
          constructor
          · rintro ⟨text, rfl, n, rfl, ⟨⟩⟩
            exact ⟨hcomposite, rfl, rfl, nofun⟩
          · rintro ⟨-, hname, hsize, -⟩
            exact ⟨name, hname, size, hsize, rfl⟩
  | moment written =>
      constructor
      · rintro ⟨⟩
        exact ⟨.inr (.inr ⟨written, rfl⟩), rfl, rfl, nofun⟩
      · rintro ⟨-, hname, hsize, -⟩
        obtain ⟨name, size⟩ := s
        obtain rfl : name = defaultThreadName := hname
        obtain rfl : size = defaultMaxUpdates := hsize
        rfl
  | boolean _ | integer _ | real _ | text _ =>
      refine iff_of_false (fun h => ?_) fun h => ?_
      · obtain ⟨_, -, h⟩ := bind_eq_ok_iff.mp h
        cases h
      · rcases h.composite with ⟨_, h⟩ | ⟨_, _, h⟩ | ⟨_, h⟩ <;> cases h

/-- **A document** gives exactly the settings that are read from it. -/
theorem ofTable_eq_ok_iff (ht : Keyed (.table t)) : ofTable t = .ok s ↔ Fits t s := by
  have hkeys := (Toml.keyed_table_iff.mp ht).1
  have hsorted : (t.sorted.map Prod.fst).Nodup :=
    ((List.mergeSort_perm _ _).map Prod.fst).nodup_iff.mpr hkeys
  have hmem : ∀ entry, entry ∈ t.sorted ↔ entry ∈ t.entries :=
    fun _ => (List.mergeSort_perm _ _).mem_iff
  rw [ofTable, foldlM_withSection hsorted, lookup_sorted hkeys]
  simp only [hmem]
  have hrunner : (t.find? "runner").elim (s = default) (ofValue · = .ok s) ↔
      (t.find? "runner").elim (s = default) (Gives · s) := by
    cases hfind : t.find? "runner" with
    | none => exact Iff.rfl
    | some v => exact ofValue_eq_ok_iff (ht.of_find? hfind)
  rw [hrunner]
  exact ⟨fun ⟨hgives, hrest⟩ => ⟨hgives, hrest⟩, fun ⟨hgives, hrest⟩ => ⟨hgives, hrest⟩⟩

/-! ### Loading -/

section Loading

variable {read : Toml.DocumentReader} {lookUp : LookUp} {env : Environment} {path reason text : String}

/-- Bytes that are a text are read as that text. -/
theorem fromUTF8?_eq_some_iff {content : ByteArray} :
    String.fromUTF8? content = some text ↔ content = text.toUTF8 := by
  rw [String.fromUTF8?]
  constructor
  · intro h
    split at h <;> cases h
    rfl
  · rintro rfl
    exact dif_pos text.isValidUTF8

namespace Standing

variable {x : Standing}

/-- Nothing shows where nothing exists, or something whose metadata cannot be read. -/
theorem shows_eq_false_iff : x.shows = false ↔ x = .nothing ∨ ∃ reason, x = .hidden reason := by
  cases x <;> simp [shows]

/-- The text that is read is the one that a file holds. -/
theorem text_eq_ok_iff : x.text = .ok text ↔ x = .file text.toUTF8 := by
  cases x with
  | nothing | hidden _ | unreadable _ => exact iff_of_false nofun nofun
  | file content =>
      rw [Standing.file.injEq, ← fromUTF8?_eq_some_iff, Standing.text]
      cases String.fromUTF8? content <;> simp

/-- What shows and is not read cannot be read, or holds bytes that are no text. -/
theorem unread_iff : x.shows = true ∧ x.text = .error reason ↔
    x = .unreadable reason ∨ reason = notText ∧ ∃ content, x = .file content ∧
      ∀ text : String, content ≠ text.toUTF8 := by
  cases x with
  | nothing | hidden _ => simp [shows]
  | unreadable _ => simp [shows, Standing.text]
  | file content =>
      have htext : (∀ text : String, content ≠ text.toUTF8) ↔
          String.fromUTF8? content = none := by
        simp only [Option.eq_none_iff_forall_ne_some, ne_eq, fromUTF8?_eq_some_iff]
      simp only [shows, Standing.text, htext, reduceCtorEq, false_or, Standing.file.injEq,
        exists_eq_left', true_and]
      cases String.fromUTF8? content <;> simp [eq_comm]

end Standing

theorem ofText_eq_ok_iff (hread : read.Keyed) :
    ofText text read = .ok s ↔ ∃ t, read text = some t ∧ Fits t s := by
  rw [ofText]
  cases htable : read text with
  | none => exact iff_of_false nofun nofun
  | some t =>
      rw [show (∃ t', some t = some t' ∧ Fits t' s) ↔ ofTable t = .ok s by
        simp [ofTable_eq_ok_iff (hread text t htable)]]
      dsimp only
      cases ofTable t <;> simp

/-- A text gives no settings if it is no document, or its document gives none. -/
theorem ofText_eq_error_iff (hread : read.Keyed) :
    (∃ fault, ofText text read = .error fault) ↔ ∀ t s, read text = some t → ¬ Fits t s := by
  constructor
  · rintro ⟨fault, hfault⟩ t s htable hfits
    cases hfault.symm.trans ((ofText_eq_ok_iff hread).mpr ⟨t, htable, hfits⟩)
  · intro h
    cases hof : ofText text read with
    | error fault => exact ⟨fault, rfl⟩
    | ok s =>
        obtain ⟨t, htable, hfits⟩ := (ofText_eq_ok_iff hread).mp hof
        exact absurd hfits (h t s htable)

/-- **The path** is the variable's value; if that is empty, it is the home directory's, a slash unless
that is there, and the fixed place below it. -/
theorem configPath_eq_some_iff : configPath env = some path ↔
    (env.config = some path ∧ path ≠ "") ∨ (env.config = none ∨ env.config = some "") ∧
      ∃ home, env.home = some home ∧ path = home ++
        if home = "" ∨ home.toList.getLast? = some '/' then ".handoff/config.toml"
        else "/.handoff/config.toml" := by
  have hhome : (env.home.map fun home => below home ".handoff/config.toml") = some path ↔
      ∃ home, env.home = some home ∧ path = home ++
        if home = "" ∨ home.toList.getLast? = some '/' then ".handoff/config.toml"
        else "/.handoff/config.toml" :=
    Option.map_eq_some_iff.trans (exists_congr fun home => and_congr_right fun _ => by
      rw [below, String.append_assoc, ← apply_ite (home ++ ·)]
      exact eq_comm)
  rw [configPath, ← hhome]
  cases henv : env.config with
  | none => simp
  | some value =>
      by_cases hvalue : value = ""
      · subst hvalue
        have hdropped : (some "").filter (!·.isEmpty) = none := rfl
        rw [hdropped]
        constructor
        · exact fun h => .inr ⟨.inr rfl, h⟩
        · rintro (⟨heq, hne⟩ | ⟨-, h⟩)
          · exact absurd (Option.some.inj heq).symm hne
          · exact h
      · have hkept : (some value).filter (!·.isEmpty) = some value := by
          simp [Option.filter, hvalue]
        simp only [hkept, Option.some.injEq, hvalue, reduceCtorEq, or_false, false_and]
        exact ⟨fun heq => ⟨heq, heq ▸ hvalue⟩, And.left⟩

/-- What loading comes to at the path, if there is one. -/
theorem load_eq_iff {outcome : Except LoadFault (Option Settings)} (hsome : outcome ≠ .ok none) :
    load lookUp env read = outcome ↔
      ∃ path, configPath env = some path ∧ loadFrom lookUp path read = outcome := by
  rw [load]
  cases configPath env with
  | none => exact iff_of_false (fun h => hsome h.symm) nofun
  | some path => exact ⟨fun h => ⟨path, rfl, h⟩, fun ⟨_, hpath, h⟩ => by cases hpath; exact h⟩

/-- The outcomes of loading from a path, in the order in which they are decided. -/
inductive LoadedFrom (lookUp : LookUp) (path : String) (read : Toml.DocumentReader) :
    Except LoadFault (Option Settings) → Prop where
  | nothing : (lookUp path).shows = false → LoadedFrom lookUp path read (.ok none)
  | unread (reason : String) : (lookUp path).shows = true → (lookUp path).text = .error reason →
      LoadedFrom lookUp path read (.error (.unreadable path reason))
  | malformed (text : String) (fault : LayoutFault) : lookUp path = .file text.toUTF8 →
      ofText text read = .error fault → LoadedFrom lookUp path read (.error (.malformed path fault))
  | given (text : String) (s : Settings) : lookUp path = .file text.toUTF8 →
      ofText text read = .ok s → LoadedFrom lookUp path read (.ok (some s))

theorem loadFrom_eq_iff {outcome : Except LoadFault (Option Settings)} :
    loadFrom lookUp path read = outcome ↔ LoadedFrom lookUp path read outcome := by
  constructor
  · rintro rfl
    rw [loadFrom]
    split
    · next hshows =>
      split
      · next reason hreason => exact .unread reason hshows hreason
      · next text htext =>
        have hfile := Standing.text_eq_ok_iff.mp htext
        split
        · next s hs => exact .given text s hfile hs
        · next fault hfault => exact .malformed text fault hfile hfault
    · next hhidden => exact .nothing (Bool.eq_false_iff.mpr hhidden)
  · intro h
    cases h with
    | nothing hhidden => exact if_neg (Bool.eq_false_iff.mp hhidden)
    | unread reason hshows hreason =>
        rw [loadFrom, if_pos hshows, hreason]
    | malformed text fault hfile hfault =>
        have htext : (lookUp path).text = .ok text := Standing.text_eq_ok_iff.mpr hfile
        have hshows : (lookUp path).shows = true := by rw [hfile]; rfl
        simp only [loadFrom, hshows, htext, hfault, if_true]
    | given text s hfile hs =>
        have htext : (lookUp path).text = .ok text := Standing.text_eq_ok_iff.mpr hfile
        have hshows : (lookUp path).shows = true := by rw [hfile]; rfl
        simp only [loadFrom, hshows, htext, hs, if_true]

/-- **Nothing to see.** There are no settings exactly if there is no path, or nothing exists there,
or something whose metadata cannot be read. -/
theorem load_eq_ok_none_iff : load lookUp env read = .ok none ↔
    ∀ path, configPath env = some path →
      lookUp path = .nothing ∨ ∃ reason, lookUp path = .hidden reason := by
  have hfrom : ∀ path, loadFrom lookUp path read = .ok none ↔
      lookUp path = .nothing ∨ ∃ reason, lookUp path = .hidden reason := by
    intro path
    rw [← Standing.shows_eq_false_iff, loadFrom_eq_iff]
    exact ⟨fun h => by cases h; assumption, .nothing⟩
  rw [load]
  cases configPath env with
  | none => exact iff_of_true rfl nofun
  | some path =>
      dsimp only
      rw [hfrom]
      exact ⟨fun h _ hpath => Option.some.inj hpath ▸ h, fun h => h path rfl⟩

/-- **Unreadable.** Something shows at the path that cannot be read, or whose bytes are no text. -/
theorem load_eq_unreadable_iff : load lookUp env read = .error (.unreadable path reason) ↔
    configPath env = some path ∧ (lookUp path = .unreadable reason ∨
      reason = notText ∧ ∃ content, lookUp path = .file content ∧
        ∀ text : String, content ≠ text.toUTF8) := by
  rw [load_eq_iff (by simp), ← Standing.unread_iff]
  constructor
  · rintro ⟨path', hpath, hfrom⟩
    cases loadFrom_eq_iff.mp hfrom with
    | unread _ hshows hreason => exact ⟨hpath, hshows, hreason⟩
  · rintro ⟨hpath, hshows, hreason⟩
    exact ⟨path, hpath, loadFrom_eq_iff.mpr (.unread reason hshows hreason)⟩

/-- **Malformed.** A text stands at the path that is no document, or whose document gives no
settings. -/
theorem load_eq_malformed_iff (hread : read.Keyed) :
    (∃ fault, load lookUp env read = .error (.malformed path fault)) ↔
      configPath env = some path ∧ ∃ text : String, lookUp path = .file text.toUTF8 ∧
        ∀ t s, read text = some t → ¬ Fits t s := by
  simp only [← ofText_eq_error_iff hread]
  constructor
  · rintro ⟨fault, h⟩
    obtain ⟨path', hpath, hfrom⟩ := (load_eq_iff (by simp)).mp h
    cases loadFrom_eq_iff.mp hfrom with
    | malformed text _ hfile hfault => exact ⟨hpath, text, hfile, fault, hfault⟩
  · rintro ⟨hpath, text, hfile, fault, hfault⟩
    exact ⟨fault, (load_eq_iff (by simp)).mpr
      ⟨path, hpath, loadFrom_eq_iff.mpr (.malformed text fault hfile hfault)⟩⟩

/-- **Settings.** A text stands at the path whose document gives them. -/
theorem load_eq_ok_some_iff (hread : read.Keyed) : load lookUp env read = .ok (some s) ↔
    ∃ (path text : String) (t : Table), configPath env = some path ∧
      lookUp path = .file text.toUTF8 ∧ read text = some t ∧ Fits t s := by
  rw [load_eq_iff (by simp)]
  constructor
  · rintro ⟨path, hpath, hfrom⟩
    cases loadFrom_eq_iff.mp hfrom with
    | given text _ hfile hs =>
        obtain ⟨t, htable, hfits⟩ := (ofText_eq_ok_iff hread).mp hs
        exact ⟨path, text, t, hpath, hfile, htable, hfits⟩
  · rintro ⟨path, text, t, hpath, hfile, htable, hfits⟩
    exact ⟨path, hpath, loadFrom_eq_iff.mpr
      (.given text s hfile ((ofText_eq_ok_iff hread).mpr ⟨t, htable, hfits⟩))⟩

end Loading

end Offload.Settings
