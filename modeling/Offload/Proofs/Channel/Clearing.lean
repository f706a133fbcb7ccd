import Mathlib.Data.List.Basic
import Mathlib.Data.List.Perm.Basic
import Offload.Proofs.Alone
import Offload.Proofs.Channel.Waking

/-!
# Clearing a channel that its items refill

The finalizer of an item may push further items to the channel that is being cleared, and theirs may
do the same. A clear detaches all items before the first finalizer runs, so it removes what was
there when it began and leaves the children of it; the clears that follow remove the children of
those, one generation at a time.

Here one thread uses the channel by itself, so what it comes to does not depend on the scheduler.

## Main definitions

* `Refills`: code that pushes some items and ends.
* `Tree`, `level`, `height`: items with the items that their finalizers push.
* `removal`: what one clear leaves in the history.

## Main results

* `comes_cleared`: what a clear comes to.
* `comes_exhausted`: what clearing until nothing is left comes to.
* `clear_by_generation`: both of them, in every state of every run of one thread.
-/

namespace Offload.Channel

variable {κ ω α ι ρ ν : Type}

/-! ### Trees of items -/

/-- An item, and the items that its finalizer pushes. -/
inductive Tree (ι : Type) where
  | node (label : ι) (children : List (Tree ι))

/-- The items that the finalizer of an item pushes. -/
def Tree.children : Tree ι → List (Tree ι)
  | .node _ children => children

mutual

/-- How many levels an item has with all that descends from it. -/
def Tree.height : Tree ι → Nat
  | .node _ children => height children + 1

/-- How many levels the deepest of some items has. -/
def height : List (Tree ι) → Nat
  | [] => 0
  | tree :: forest => max tree.height (height forest)

end

mutual

/-- An item and all that descends from it. -/
def Tree.nodes : Tree ι → List (Tree ι)
  | .node label children => .node label children :: nodes children

/-- Some items and all that descends from them. -/
def nodes : List (Tree ι) → List (Tree ι)
  | [] => []
  | tree :: forest => tree.nodes ++ nodes forest

end

/-- The items of a level, from left to right; the items themselves are level zero. -/
def level : Nat → List (Tree ι) → List (Tree ι)
  | 0, forest => forest
  | m + 1, forest => level m (forest.flatMap Tree.children)

/-- All levels, the top one first. -/
def levels (forest : List (Tree ι)) : List (List (Tree ι)) :=
  (List.range (height forest)).map (level · forest)

theorem height_append (forest forest' : List (Tree ι)) :
    height (forest ++ forest') = max (height forest) (height forest') := by
  induction forest with
  | nil => simp [height]
  | cons tree forest ih => rw [List.cons_append, height, height, ih, max_assoc]

/-- The children of some items have one level less. -/
theorem height_children (forest : List (Tree ι)) :
    height (forest.flatMap Tree.children) = height forest - 1 := by
  induction forest with
  | nil => rfl
  | cons tree forest ih =>
      obtain ⟨label, children⟩ := tree
      rw [List.flatMap_cons, height_append, ih, height, Tree.height, Tree.children]
      omega

theorem height_pos {forest : List (Tree ι)} (h : forest ≠ []) : 0 < height forest := by
  cases forest with
  | nil => exact absurd rfl h
  | cons tree forest =>
      obtain ⟨label, children⟩ := tree
      rw [height, Tree.height]
      omega

/-- The top level of some items is the items, and the others are the levels of their children. -/
theorem levels_of_ne_nil {forest : List (Tree ι)} (h : forest ≠ []) :
    levels forest = forest :: levels (forest.flatMap Tree.children) := by
  have hheight : height forest = height (forest.flatMap Tree.children) + 1 := by
    have hpos := height_pos h
    rw [height_children]
    omega
  rw [levels, levels, hheight, List.range_succ_eq_map, List.map_cons, List.map_map]
  rfl

/-- Each level has an item. -/
theorem ne_nil_of_mem_levels {forest items : List (Tree ι)} (h : items ∈ levels forest) :
    items ≠ [] := by
  generalize hn : height forest = n
  induction n generalizing forest with
  | zero =>
      rw [levels, hn] at h
      cases h
  | succ n ih =>
      have hne : forest ≠ [] := by
        rintro rfl
        cases hn
      rw [levels_of_ne_nil hne, List.mem_cons] at h
      rcases h with rfl | h
      · exact hne
      · exact ih h (by rw [height_children, hn, Nat.add_sub_cancel])

/-- Everything that descends from some items is the items, and what descends from their children. -/
theorem nodes_perm (forest : List (Tree ι)) :
    (nodes forest).Perm (forest ++ nodes (forest.flatMap Tree.children)) := by
  have happend : ∀ forest forest' : List (Tree ι),
      nodes (forest ++ forest') = nodes forest ++ nodes forest' := by
    intro forest forest'
    induction forest with
    | nil => rfl
    | cons tree forest ih => rw [List.cons_append, nodes, nodes, ih, List.append_assoc]
  induction forest with
  | nil => exact .nil
  | cons tree forest ih =>
      obtain ⟨label, children⟩ := tree
      rw [List.flatMap_cons, happend, nodes, Tree.nodes, Tree.children, List.cons_append,
        List.cons_append]
      refine .cons _ (((List.Perm.refl _).append ih).trans ?_)
      rw [← List.append_assoc, ← List.append_assoc]
      exact List.perm_append_comm.append_right _

/-- The levels hold each item once, and nothing else. -/
theorem flatten_levels_perm (forest : List (Tree ι)) :
    (levels forest).flatten.Perm (nodes forest) := by
  generalize hn : height forest = n
  induction n generalizing forest with
  | zero =>
      have hnil : forest = [] := by
        by_contra hne
        exact absurd (height_pos hne) (by omega)
      rw [hnil]
      exact .nil
  | succ n ih =>
      have hne : forest ≠ [] := by
        rintro rfl
        cases hn
      rw [levels_of_ne_nil hne, List.flatten_cons]
      have hheight : height (forest.flatMap Tree.children) = n := by
        rw [height_children, hn, Nat.add_sub_cancel]
      exact ((List.Perm.refl _).append (ih _ hheight)).trans (nodes_perm forest).symm

/-! ### Code that refills the channel -/

/-- Whether code pushes these items one after the other and then ends; it may note what it likes. -/
inductive Refills (next : κ → Move κ ω (Request α) (Answer α) ρ ν) : List α → κ → Prop where
  | done {position : κ} (result : ρ) : next position = .ret result → Refills next [] position
  | noting {position position' : κ} {items : List α} (note : ν) :
      next position = .note note position' → Refills next items position' →
      Refills next items position
  | pushing {position : κ} {item : α} {items : List α} {k : Except Fault (Answer α) → κ} :
      next position = .call (.pushing item) k → Refills next items (k (.ok .done)) →
      Refills next (item :: items) position

/-- Whether the finalizer of an item pushes its children; one that has none may lack a finalizer. -/
def Finalizes (next : κ → Move κ ω (Request (Tree ι)) (Answer (Tree ι)) ρ ν)
    (finalizer : Tree ι → Option κ) (tree : Tree ι) : Prop :=
  match finalizer tree with
  | none => tree.children = []
  | some code => Refills next tree.children code

/-- Whether code clears the channel until there was nothing to remove, and goes on as `done`
then. -/
def Exhausts (next : κ → Move κ ω (Request α) (Answer α) ρ ν) (position done : κ) : Prop :=
  ∃ k, next position = .call .clearing k ∧ (∀ n, k (.ok (.count (n + 1))) = position) ∧
    k (.ok (.count 0)) = done

/-- What a clear of these items leaves in the history: they are removed at once, and then they are
finalized front to back, and each pushes its children. -/
def removal (items : List (Tree ι)) : List (Mark (Tree ι)) :=
  .cleared items :: items.flatMap fun item => .finalized item :: item.children.map .appended

/-- A clear finalizes what it removes. -/
theorem finalized_removal (items : List (Tree ι)) : finalized (removal items) = items := by
  have hchildren : ∀ children : List (Tree ι),
      finalized (children.map Mark.appended) = [] := by
    intro children
    induction children with
    | nil => rfl
    | cons child children ih => exact ih
  show finalized (items.flatMap _) = items
  induction items with
  | nil => rfl
  | cons item items ih =>
      rw [List.flatMap_cons, finalized_append, ih]
      exact congrArg (fun found => item :: (found ++ items)) (hchildren item.children)

/-- Clears that remove the levels of some items finalize them and all that descends from them. -/
theorem finalized_levels_perm (forest : List (Tree ι)) :
    (finalized ((levels forest).flatMap removal ++ [.cleared []])).Perm (nodes forest) := by
  have hall : ∀ removed : List (List (Tree ι)),
      finalized (removed.flatMap removal) = removed.flatten := by
    intro removed
    induction removed with
    | nil => rfl
    | cons items removed ih =>
        rw [List.flatMap_cons, finalized_append, finalized_removal, ih, List.flatten_cons]
  rw [finalized_append, hall]
  exact (List.append_nil _).symm ▸ flatten_levels_perm forest

/-! ### One thread by itself -/

section Alone

variable {hook : Option κ} {finalizer : α → Option κ}
  {next : κ → Move κ ω (Request α) (Answer α) ρ ν} {t : Tid} {world : ω}
  {s : State κ ω (Channel α) (Call α) (Answer α) (Event α ν)}
  {Q : State κ ω (Channel α) (Call α) (Answer α) (Event α ν) → Prop}
  {rest : Stack κ (Call α) (Answer α)} {events : List (Event α ν)} {items : List α}

/-- A push by a thread by itself adds its item. -/
theorem comes_pushed {item : α} (hlive : s.aborted = false) (ht : t < s.threads.length)
    (h : (machine none finalizer next).Comes t Q
      (s.going t { value := items ++ [item] } world (Machine.finishCall (.ok .done) rest)
        (events ++ [.mark (.appended item)]))) :
    (machine none finalizer next).Comes t Q
      (s.going t { value := items } world (.call (.push (.start item)) :: rest) events) := by
  have harrived : ∀ choice, turn (ε := ν) none finalizer t choice { value := items }
      (.push (.start item)) = some ({ value := items, owner := some t }, [],
        .stay (.push (.adding item (.acting false)))) := fun _ => rfl
  have hadded : ∀ choice, turn (ε := ν) none finalizer t choice
      { value := items, owner := some t } (.push (.adding item (.acting false))) =
      some ({ value := items ++ [item], owner := some t }, [.mark (.appended item)],
        .stay (.push (.adding item (.leaving (.ok (some ())))))) := fun _ => rfl
  have hleft : ∀ choice, turn (ε := ν) none finalizer t choice
      { value := items ++ [item], owner := some t }
      (.push (.adding item (.leaving (.ok (some ()))))) =
      some ({ value := items ++ [item] }, [], .stay (.push .notifying)) := fun _ => rfl
  have hnotified : ∀ choice, turn (ε := ν) none finalizer t choice { value := items ++ [item] }
      (.push .notifying) = some ({ value := items ++ [item] }, [], .stay (.push .hooking)) :=
    fun _ => rfl
  have hdone : ∀ choice, turn (ε := ν) none finalizer t choice { value := items ++ [item] }
      (.push .hooking) = some ({ value := items ++ [item] }, [], .ret .done) := fun _ => rfl
  refine .turn hlive ht harrived (Turn.stay_ne_abort _) ?_
  refine .turn hlive ht hadded (Turn.stay_ne_abort _) ?_
  refine .turn hlive ht hleft (Turn.stay_ne_abort _) ?_
  refine .turn hlive ht hnotified (Turn.stay_ne_abort _) ?_
  refine .turn hlive ht hdone (Turn.ret_ne_abort _) ?_
  simpa only [List.append_nil, Machine.afterTurn] using h

/-- The next move of the machine at a position. -/
theorem next_eq {position : κ} {move : Move κ ω (Request α) (Answer α) ρ ν}
    (h : next position = move) :
    (machine hook finalizer next).next position = move.map Request.call .note :=
  congrArg (Move.map Request.call Event.note) h

/-- Code that refills the channel adds its items. -/
theorem comes_refilled {added : List α} {position : κ} (hlive : s.aborted = false)
    (ht : t < s.threads.length) (hcode : Refills next added position)
    (h : ∀ result later, later.flatMap Event.marks = added.map .appended →
      (machine none finalizer next).Comes t Q (s.going t { value := items ++ added } world
        ((machine none finalizer next).finishCode (.ok result) rest) (events ++ later))) :
    (machine none finalizer next).Comes t Q
      (s.going t { value := items } world (.code position :: rest) events) := by
  induction hcode generalizing items events with
  | @done position result hnext =>
      refine .ended hlive ht (congrArg Move.ended? (next_eq hnext)) ?_
      have hend := h result [] rfl
      rwa [List.append_nil, List.append_nil] at hend
  | @noting position position' added note hnext _ ih =>
      refine .noted hlive ht (next_eq hnext) (ih fun result later hlater => ?_)
      have hend := h result (.note note :: later) hlater
      rwa [List.append_cons] at hend
  | @pushing position item added k hnext _ ih =>
      refine .called hlive ht (next_eq hnext)
        (comes_pushed hlive ht (ih fun result later hlater => ?_))
      have hend := h result (.mark (.appended item) :: later) (by
        rw [List.flatMap_cons, hlater]
        rfl)
      rwa [List.append_cons items, List.append_cons events] at hend

end Alone

section Trees

variable {finalizer : Tree ι → Option κ}
  {next : κ → Move κ ω (Request (Tree ι)) (Answer (Tree ι)) ρ ν} {t : Tid} {world : ω}
  {s : State κ ω (Channel (Tree ι)) (Call (Tree ι)) (Answer (Tree ι)) (Event (Tree ι) ν)}
  {Q : State κ ω (Channel (Tree ι)) (Call (Tree ι)) (Answer (Tree ι)) (Event (Tree ι) ν) → Prop}
  {rest : Stack κ (Call (Tree ι)) (Answer (Tree ι))} {events : List (Event (Tree ι) ν)}

/-- The finalizers of a clear run one after the other, and each adds the children of its item. -/
theorem comes_finalized {count : Nat} {items detached : List (Tree ι)} (hlive : s.aborted = false)
    (ht : t < s.threads.length) (hfinalizes : ∀ tree, Finalizes next finalizer tree)
    (h : ∀ later, later.flatMap Event.marks =
        detached.flatMap (fun item => .finalized item :: item.children.map .appended) →
      (machine none finalizer next).Comes t Q
        (s.going t { value := items ++ detached.flatMap Tree.children } world
          (Machine.finishCall (.ok (.count count)) rest) (events ++ later))) :
    (machine none finalizer next).Comes t Q (s.going t { value := items } world
      (.call (.clear (.finalizing count detached none)) :: rest) events) := by
  induction detached generalizing items events with
  | nil =>
      have hdone : ∀ choice, turn (ε := ν) none finalizer t choice { value := items }
          (.clear (.finalizing count [] none)) =
            some ({ value := items }, [], .ret (.count count)) :=
        fun _ => rfl
      refine .turn hlive ht hdone (Turn.ret_ne_abort _) ?_
      have hend := h [] rfl
      rwa [List.flatMap_nil, List.append_nil] at hend
  | cons item detached ih =>
      have hfinalized : ∀ choice, turn (ε := ν) none finalizer t choice { value := items }
          (.clear (.finalizing count (item :: detached) none)) =
          some ({ value := items }, [.mark (.finalized item)], match finalizer item with
            | none => .stay (.clear (.finalizing count detached none))
            | some code => .run code (.clear (.finalizing count detached none))) := by
        intro choice
        rw [turn, Clear.turn]
        cases finalizer item <;> rfl
      have hitem := hfinalizes item
      rw [Finalizes] at hitem
      have hrest : ∀ later, later.flatMap Event.marks = item.children.map .appended →
          (machine none finalizer next).Comes t Q
            (s.going t { value := items ++ item.children } world
              (.call (.clear (.finalizing count detached none)) :: rest)
              (events ++ [.mark (.finalized item)] ++ later)) := by
        intro later hlater
        refine ih fun later' hlater' => ?_
        have hend := h (.mark (.finalized item) :: (later ++ later')) (by
          rw [List.flatMap_cons, List.flatMap_append, hlater, hlater', List.flatMap_cons]
          rfl)
        rwa [List.append_cons events, List.flatMap_cons, ← List.append_assoc items,
          ← List.append_assoc (events ++ _)] at hend
      cases hfinalizer : finalizer item with
      | none =>
          rw [hfinalizer] at hitem hfinalized
          refine .turn hlive ht hfinalized (Turn.stay_ne_abort _) ?_
          have hgoes := hrest [] (by rw [hitem]; rfl)
          rwa [hitem, List.append_nil, List.append_nil] at hgoes
      | some code =>
          rw [hfinalizer] at hitem hfinalized
          exact .turn hlive ht hfinalized (by rintro ⟨⟩)
            (comes_refilled hlive ht hitem fun result later hlater => hrest later hlater)

/-- **One clear.** It removes what was there when it began, and leaves the children of that, parent
by parent. -/
theorem comes_cleared {items : List (Tree ι)} (hlive : s.aborted = false)
    (ht : t < s.threads.length) (hfinalizes : ∀ tree, Finalizes next finalizer tree)
    (h : ∀ later, later.flatMap Event.marks = removal items →
      (machine none finalizer next).Comes t Q
        (s.going t { value := items.flatMap Tree.children } world
          (Machine.finishCall (.ok (.count items.length)) rest) (events ++ later))) :
    (machine none finalizer next).Comes t Q
      (s.going t { value := items } world (.call (.clear .start) :: rest) events) := by
  have harrived : ∀ choice, turn (ε := ν) none finalizer t choice { value := items }
      (.clear .start) = some ({ value := items, owner := some t }, [],
        .stay (.clear (.taking (.acting false)))) := fun _ => rfl
  have htaken : ∀ choice, turn (ε := ν) none finalizer t choice
      { value := items, owner := some t } (.clear (.taking (.acting false))) =
      some ({ value := [], owner := some t }, [.mark (.cleared items)],
        .stay (.clear (.taking (.leaving (.ok (some items)))))) := fun _ => rfl
  have hleft : ∀ choice, turn (ε := ν) none finalizer t choice
      { value := [], owner := some t } (.clear (.taking (.leaving (.ok (some items))))) =
      some ({ value := [] }, [], .stay (.clear (.finalizing items.length items none))) :=
    fun _ => rfl
  refine .turn hlive ht harrived (Turn.stay_ne_abort _) ?_
  refine .turn hlive ht htaken (Turn.stay_ne_abort _) ?_
  refine .turn hlive ht hleft (Turn.stay_ne_abort _) ?_
  refine comes_finalized hlive ht hfinalizes fun later hlater => ?_
  have hend := h (.mark (.cleared items) :: later) (by
    rw [List.flatMap_cons, hlater]
    rfl)
  rw [List.append_cons] at hend
  simpa only [List.append_nil, List.nil_append] using hend

/-- **Clearing until nothing is left.** Each clear removes the next level, and the last one finds
nothing. -/
theorem comes_exhausted {position done : κ} {forest : List (Tree ι)} (hlive : s.aborted = false)
    (ht : t < s.threads.length) (hfinalizes : ∀ tree, Finalizes next finalizer tree)
    (hcode : Exhausts next position done)
    (h : ∀ later, later.flatMap Event.marks = (levels forest).flatMap removal ++ [.cleared []] →
      (machine none finalizer next).Comes t Q
        (s.going t { value := [] } world (.code done :: rest) (events ++ later))) :
    (machine none finalizer next).Comes t Q
      (s.going t { value := forest } world (.code position :: rest) events) := by
  obtain ⟨k, hnext, hagain, hdone⟩ := hcode
  generalize hn : height forest = n
  induction n generalizing forest events with
  | zero =>
      have hnil : forest = [] := by
        by_contra hne
        exact absurd (height_pos hne) (by omega)
      subst hnil
      refine .called hlive ht (next_eq hnext)
        (comes_cleared hlive ht hfinalizes fun later hlater => ?_)
      rw [show Machine.finishCall (.ok (.count ([] : List (Tree ι)).length)) (.wait k :: rest) =
        .code (k (.ok (.count 0))) :: rest from rfl, hdone]
      exact h later hlater
  | succ n ih =>
      have hne : forest ≠ [] := by
        rintro rfl
        cases hn
      obtain ⟨m, hm⟩ := Nat.exists_eq_succ_of_ne_zero (List.length_pos_iff.mpr hne).ne'
      refine .called hlive ht (next_eq hnext)
        (comes_cleared hlive ht hfinalizes fun later hlater => ?_)
      rw [hm, show Machine.finishCall (.ok (.count m.succ)) (.wait k :: rest) =
        .code (k (.ok (.count (m + 1)))) :: rest from rfl, hagain]
      refine ih (fun later' hlater' => ?_) (by rw [height_children, hn, Nat.add_sub_cancel])
      rw [List.append_assoc]
      refine h (later ++ later') ?_
      rw [List.flatMap_append, hlater, hlater', levels_of_ne_nil hne, List.flatMap_cons,
        List.append_assoc]

/-! ### Every run -/

variable {code : κ}

/-- In every state of a run of one thread in which it makes no call but one that wants the lock, the
lock is free and nobody sleeps. -/
theorem free_of_reach {frame : Frame κ (Call (Tree ι)) (Answer (Tree ι))}
    (h : (machine none finalizer next).Reach (.ofCodes empty world [code]) s)
    (hstack : s.stack 0 = frame :: rest)
    (hframe : ∀ call, (callsOf (frame :: rest)).active = some call →
      call.owns = false ∧ ∀ p, call ≠ .pop p) :
    s.aborted = false ∧ s.threads.length = 1 ∧ ∃ items, s.shared = { value := items } := by
  have hone : s.threads.length = 1 := h.length_threads
  have hzero : ∀ {s₁ : State κ ω (Channel (Tree ι)) (Call (Tree ι)) (Answer (Tree ι))
      (Event (Tree ι) ν)} {u : Tid}, s₁.threads.length = 1 → s₁.stack u ≠ [] → u = 0 := by
    intro s₁ u hs₁ hne
    by_contra hu
    refine hne ?_
    rw [State.stack, List.getElem?_eq_none (hs₁.trans_le (Nat.one_le_iff_ne_zero.mpr hu))]
    rfl
  have hlive : s.aborted = false := by
    rcases h.live_or_aborted rfl with hlive | ⟨s₁, u, _, call, below, _, h₁, _, hcall, _, hended, -⟩
    · exact hlive
    · obtain rfl := hzero h₁.length_threads (hcall ▸ List.cons_ne_nil _ _)
      rw [hended] at hstack
      cases hstack
  obtain ⟨v, hshows, hheld, hwakeful⟩ := exists_wakeful h
  have hactive : ∀ u call, (v.calls u).active = some call → u = 0 ∧
      (callsOf (frame :: rest)).active = some call := by
    intro u call hcall
    rw [hshows.calls_eq hlive] at hcall
    obtain ⟨below, hbelow⟩ := exists_of_active hcall
    obtain rfl := hzero hone (hbelow ▸ List.cons_ne_nil _ _)
    exact ⟨rfl, hstack ▸ hcall⟩
  have howner : s.shared.owner = none := by
    rw [← hshows.shared_eq]
    cases howner : v.shared.owner with
    | none => rfl
    | some u =>
        obtain ⟨call, hcall, howns⟩ :=
          (Option.any_eq_true _ _).mp ((hheld.owner_iff u ()).mp howner)
        have hfalse := (hframe call (hactive u call hcall).2).1
        rw [show locks.owns call () = call.owns from rfl, hfalse] at howns
        cases howns
  have hsleepers : s.shared.sleepers = [] := by
    rw [← hshows.shared_eq]
    refine List.eq_nil_iff_forall_not_mem.mpr fun u hu => ?_
    obtain ⟨-, wait, -, hpop⟩ := hwakeful.sleepers u hu
    exact (hframe _ (hactive u _ hpop).2).2 _ rfl
  have hsound := hwakeful.unpoisoned
  rw [hshows.shared_eq] at hsound
  refine ⟨hlive, hone, s.shared.value, ?_⟩
  rw [← howner, ← hsleepers, ← hsound]

/-- **Clearing goes by generations.** On a channel without a hook that one thread uses by itself,
where the finalizer of each item pushes the children of the item, in every state of every run:

* a clear answers with the number of the items that were there when it began, finalizes these front
  to back, each once, and leaves the children of them, parent by parent;
* code that clears until there was nothing to remove makes one clear for each level, and none of
  these finds nothing; the `m`th removes just the items of level `m`, so all items are finalized
  once, with all that descends from them, and nothing is left.

The thread comes there whatever the scheduler chooses. -/
theorem clear_by_generation (hfinalizes : ∀ tree, Finalizes next finalizer tree)
    (h : (machine none finalizer next).Reach (.ofCodes empty world [code]) s) :
    (s.stack 0 = .call (.clear .start) :: rest →
      (machine none finalizer next).Comes 0 (fun s' =>
        s'.stack 0 = Machine.finishCall (.ok (.count s.shared.value.length)) rest ∧
          s'.shared.value = s.shared.value.flatMap Tree.children ∧
          ∃ later, s'.history = s.history ++ later ∧ marksOf later = removal s.shared.value) s) ∧
      ∀ position done, Exhausts next position done → s.stack 0 = .code position :: rest →
        ((levels s.shared.value).length = height s.shared.value ∧
          ∀ items ∈ levels s.shared.value, items ≠ []) ∧
        (machine none finalizer next).Comes 0 (fun s' =>
          s'.stack 0 = .code done :: rest ∧ s'.shared.value = [] ∧
            ∃ later, s'.history = s.history ++ later ∧
              marksOf later = (levels s.shared.value).flatMap removal ++ [.cleared []] ∧
              (finalized (marksOf later)).Perm (nodes s.shared.value)) s := by
  constructor
  · intro hstack
    obtain ⟨hlive, hone, items, hshared⟩ := free_of_reach h hstack (by
      rintro call ⟨⟩
      exact ⟨rfl, fun _ => by rintro ⟨⟩⟩)
    have ht : 0 < s.threads.length := hone ▸ Nat.one_pos
    refine .of_going ht ?_
    rw [hshared, hstack]
    refine comes_cleared hlive ht hfinalizes fun later hlater => .here
      ⟨State.going_stack ht, rfl, later.map (Prod.mk 0), State.going_history, ?_⟩
    rw [marksOf_map_mk]
    exact hlater
  · intro position done hcode hstack
    refine ⟨⟨(List.length_map _).trans List.length_range, fun _ => ne_nil_of_mem_levels⟩, ?_⟩
    obtain ⟨hlive, hone, items, hshared⟩ := free_of_reach h hstack (by
      rintro call ⟨⟩)
    have ht : 0 < s.threads.length := hone ▸ Nat.one_pos
    refine .of_going ht ?_
    rw [hshared, hstack]
    refine comes_exhausted hlive ht hfinalizes hcode fun later hlater => .here
      ⟨State.going_stack ht, rfl, later.map (Prod.mk 0), State.going_history, ?_⟩
    rw [marksOf_map_mk, hlater]
    exact ⟨rfl, finalized_levels_perm items⟩

end Trees

/-! A run in which an item with three levels is cleared. -/

/-- Where code stands that pushes an item, and clears the channel until nothing is left. -/
inductive Gardening where
  | planting (tree : Tree Nat)
  | clearing
  | refilling (trees : List (Tree Nat))
  | done

/-- What such code does next. -/
def Gardening.next :
    Gardening → Move Gardening Unit (Request (Tree Nat)) (Answer (Tree Nat)) Unit Unit
  | .planting tree => .call (.pushing tree) fun _ => .clearing
  | .clearing => .call .clearing fun
    | .ok (.count (_ + 1)) => .clearing
    | _ => .done
  | .refilling [] => .ret ()
  | .refilling (tree :: trees) => .call (.pushing tree) fun _ => .refilling trees
  | .done => .ret ()

theorem Gardening.refills (trees : List (Tree Nat)) :
    Refills Gardening.next trees (.refilling trees) := by
  induction trees with
  | nil => exact .done () rfl
  | cons tree trees ih => exact .pushing rfl ih

/-- An item with three levels. -/
def sprout : Tree Nat :=
  .node 0 [.node 1 [.node 3 []], .node 2 []]

/-- The state in which the item has been pushed. -/
def planted : State Gardening Unit (Channel (Tree Nat)) (Call (Tree Nat)) (Answer (Tree Nat))
    (Event (Tree Nat) Unit) :=
  (machine none (fun tree => some (.refilling tree.children)) Gardening.next).settle [(0, .go 0)] 6
    (.ofCodes empty () [.planting sprout])

/-- The three clears of its levels are followed by one that finds nothing. -/
theorem clear_by_generation_planted :
    planted.stack 0 = [.code .clearing] ∧ planted.shared.value = [sprout] ∧
      levels [sprout] = [[sprout], [.node 1 [.node 3 []], .node 2 []], [.node 3 []]] ∧
      (machine none (fun tree => some (.refilling tree.children)) Gardening.next).Comes 0 (fun s =>
        s.stack 0 = [.code .done] ∧ s.shared.value = [] ∧
          ∃ later, s.history = planted.history ++ later ∧
            (finalized (marksOf later)).Perm (nodes [sprout])) planted := by
  have hcode : Exhausts Gardening.next .clearing .done := ⟨_, rfl, fun _ => rfl, rfl⟩
  have hfinalizes : ∀ tree, Finalizes Gardening.next
      (fun tree => some (.refilling tree.children)) tree := fun tree =>
    Gardening.refills tree.children
  obtain ⟨-, hcomes⟩ := (clear_by_generation hfinalizes
    (Machine.reach_settle [(0, .go 0)] 6 .start)).2 _ _ hcode (show planted.stack 0 = _ from rfl)
  exact ⟨rfl, rfl, rfl, hcomes.mono fun s ⟨hstack, hvalue, later, hhistory, _, hperm⟩ =>
    ⟨hstack, hvalue, later, hhistory, hperm⟩⟩

end Offload.Channel
