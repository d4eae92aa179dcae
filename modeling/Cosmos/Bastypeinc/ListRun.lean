import Cosmos.Bastypeinc.List

/-!
# The pointers show the sequences

One lemma for each function: if the pointers of all rings are those of the sequences before, so
they are afterwards.

## Main results

* `lists_run` : every run of calls, each made where the sequences allow it, goes on with the
  pointers as it does with the sequences, and callers see the same.
-/

namespace Cosmos.Bastypeinc

open Cosmos.Lib.Rings Cosmos.Lib.Run

variable {α : Type} {l l' : Links α} {R R' R₁ R₂ : RingSet α} {r : α × List α}
  {h p q x y z new : α} {xs ys pre post : List α} {n : Nat}

/-! ## Adding -/

/-- An entry splits its list. -/
theorem exists_pre (hx : x ∈ r.2) (hnd : (r.1 :: r.2).Nodup) :
    ∃ pre post, r.2 = pre ++ x :: post ∧ x ∉ pre ∧ r.1 ≠ x := by
  obtain ⟨pre, post, heq⟩ := List.append_of_mem hx
  rw [heq] at hnd
  refine ⟨pre, post, heq, fun hpre => ?_, ?_⟩
  · exact (List.nodup_append.mp (List.nodup_cons.mp hnd).2).2.2 x hpre x (by simp) rfl
  · rintro rfl
    exact (List.nodup_cons.mp hnd).1 (by simp)

theorem perm_insert (xs ys : List α) : (h :: (xs ++ new :: ys)).Perm (new :: h :: (xs ++ ys)) :=
  (List.perm_middle.cons h).trans (List.Perm.swap ..)

/-- A function that changes the list of `x` only. -/
theorem map_eq_of_not_mem {f : α × List α → α × List α}
    (hf : ∀ r, x ∉ r.1 :: r.2 → f r = r) (hout : ∀ r' ∈ R₁ ++ R₂, x ∉ r'.1 :: r'.2) :
    (R₁ ++ r :: R₂).map f = R₁ ++ f r :: R₂ := by
  have hid : ∀ S : RingSet α, (∀ r' ∈ S, x ∉ r'.1 :: r'.2) → S.map f = S := fun S hS =>
    (List.map_congr_left fun r' hr' => hf r' (hS r' hr')).trans (List.map_id S)
  rw [List.map_append, List.map_cons, hid R₁ fun r' hr' => hout r' (List.mem_append_left _ hr'),
    hid R₂ fun r' hr' => hout r' (List.mem_append_right _ hr')]

theorem not_mem_ring (hnew : new ∉ RingSet.nodes (R₁ ++ r :: R₂)) : new ∉ r.1 :: r.2 := fun hn =>
  hnew (mem_nodes.mpr ⟨r, by simp, hn⟩)

variable [DecidableEq α]

theorem putAfter_append (hx : x ∉ pre) :
    putAfter x new (pre ++ x :: post) = pre ++ x :: new :: post := by
  induction pre with
  | nil => simp [putAfter]
  | cons y pre ih =>
      simp only [List.mem_cons, not_or] at hx
      simp [putAfter, Ne.symm hx.1, ih hx.2]

theorem putAfter_of_not_mem (hx : x ∉ xs) : putAfter x new xs = xs := by
  induction xs with
  | nil => rfl
  | cons y xs ih =>
      simp only [List.mem_cons, not_or] at hx
      simp [putAfter, Ne.symm hx.1, ih hx.2]

theorem putBefore_append (hx : x ∉ pre) :
    putBefore x new (pre ++ x :: post) = pre ++ new :: x :: post := by
  induction pre with
  | nil => simp [putBefore]
  | cons y pre ih =>
      simp only [List.mem_cons, not_or] at hx
      simp [putBefore, Ne.symm hx.1, ih hx.2]

theorem putBefore_of_not_mem (hx : x ∉ xs) : putBefore x new xs = xs := by
  induction xs with
  | nil => rfl
  | cons y xs ih =>
      simp only [List.mem_cons, not_or] at hx
      simp [putBefore, Ne.symm hx.1, ih hx.2]

theorem addAfter_of_not_mem (hx : x ∉ r.1 :: r.2) : addAfter x new r = r := by
  simp only [List.mem_cons, not_or] at hx
  simp [addAfter, Ne.symm hx.1, putAfter_of_not_mem hx.2]

theorem addBefore_of_not_mem (hx : x ∉ r.1 :: r.2) : addBefore x new r = r := by
  simp only [List.mem_cons, not_or] at hx
  simp [addBefore, Ne.symm hx.1, putBefore_of_not_mem hx.2]

/-- `list_add` in one ring. -/
theorem listAdd_ring (hl : IsRing l r.1 r.2) (hx : x ∈ r.1 :: r.2)
    (hnd : (new :: r.1 :: r.2).Nodup) :
    IsRing (listAdd l new x) (addAfter x new r).1 (addAfter x new r).2 ∧
      ((addAfter x new r).1 :: (addAfter x new r).2).Perm (new :: r.1 :: r.2) := by
  rcases List.mem_cons.mp hx with rfl | hx
  · simp only [addAfter, if_true]
    exact ⟨hl.insert hnd, List.Perm.swap ..⟩
  · obtain ⟨pre, post, heq, hpre, hne⟩ := exists_pre hx (List.nodup_cons.mp hnd).2
    simp only [addAfter, if_neg hne, heq, putAfter_append hpre]
    refine ⟨(heq ▸ hl).insert_after (heq ▸ hnd), ?_⟩
    simpa using perm_insert (pre ++ [x]) post

/-- `list_add_tail` in one ring. -/
theorem listAddTail_ring (hl : IsRing l r.1 r.2) (hx : x ∈ r.1 :: r.2)
    (hnd : (new :: r.1 :: r.2).Nodup) :
    IsRing (listAddTail l new x) (addBefore x new r).1 (addBefore x new r).2 ∧
      ((addBefore x new r).1 :: (addBefore x new r).2).Perm (new :: r.1 :: r.2) := by
  rcases List.mem_cons.mp hx with rfl | hx
  · simp only [addBefore, if_true]
    refine ⟨hl.insert_last hnd, ?_⟩
    simpa using perm_insert r.2 []
  · obtain ⟨pre, post, heq, hpre, hne⟩ := exists_pre hx (List.nodup_cons.mp hnd).2
    simp only [addBefore, if_neg hne, heq, putBefore_append hpre]
    refine ⟨(heq ▸ hl).insert_before (heq ▸ hnd), ?_⟩
    exact perm_insert pre (x :: post)

/-- `list_add`. -/
theorem listAdd_holds (hR : Holds l R) (hnew : new ∉ R.nodes) (hx : x ∈ R.nodes) :
    Holds (listAdd l new x) (R.map (addAfter x new)) := by
  obtain ⟨R₁, r, R₂, rfl, hxr, hout⟩ := exists_ring_of_mem hR.nodup hx
  have hr : r ∈ R₁ ++ r :: R₂ := by simp
  have hl := hR.ring r hr
  obtain ⟨hring, hperm⟩ := listAdd_ring hl hxr
    (List.nodup_cons.mpr ⟨not_mem_ring hnew, hR.nodup_of_mem hr⟩)
  rw [map_eq_of_not_mem (fun _ => addAfter_of_not_mem) hout]
  exact hR.link hxr (hl.mem hxr).1 hnew hring hperm

/-- `list_add_tail`. -/
theorem listAddTail_holds (hR : Holds l R) (hnew : new ∉ R.nodes) (hx : x ∈ R.nodes) :
    Holds (listAddTail l new x) (R.map (addBefore x new)) := by
  obtain ⟨R₁, r, R₂, rfl, hxr, hout⟩ := exists_ring_of_mem hR.nodup hx
  have hr : r ∈ R₁ ++ r :: R₂ := by simp
  have hl := hR.ring r hr
  obtain ⟨hring, hperm⟩ := listAddTail_ring hl hxr
    (List.nodup_cons.mpr ⟨not_mem_ring hnew, hR.nodup_of_mem hr⟩)
  rw [map_eq_of_not_mem (fun _ => addBefore_of_not_mem) hout]
  exact hR.link (hl.mem hxr).2 hxr hnew hring hperm

/-! ## Taking out -/

theorem listInit_next (hz : z ≠ y) : (listInit l y).next z = l.next z :=
  Function.update_of_ne hz ..

theorem listInit_prev (hz : z ≠ y) : (listInit l y).prev z = l.prev z :=
  Function.update_of_ne hz ..

theorem listInit_ring : IsRing (listInit l y) y [] :=
  ⟨Function.update_self .., Function.update_self ..⟩

/-- `list_init` of a node that is in no list. -/
theorem listInit_holds (hR : Holds l R) (hy : y ∉ R.nodes) :
    Holds (listInit l y) ((y, []) :: R) :=
  hR.cons_single hy listInit_ring.1 listInit_ring.2 fun _ hz =>
    ⟨listInit_next hz, listInit_prev hz⟩

/-- `list_init` of an empty list. -/
theorem listInit_again (hR : Holds l R) (hy : (y, []) ∈ R) : Holds (listInit l y) R := by
  have hl := hR.ring (y, []) hy
  apply hR.congr
  intro z _
  by_cases hz : z = y
  · subst hz
    exact ⟨listInit_ring.1.trans hl.1.symm, listInit_ring.2.trans hl.2.symm⟩
  · exact ⟨listInit_next hz, listInit_prev hz⟩

/-- `__list_del_entry` of a node that is in no list. -/
theorem listDelEntry_again (hR : Holds l R) (hy : (y, []) ∈ R) : Holds (listDelEntry l y) R := by
  have hl := hR.ring (y, []) hy
  have hprev : l.prev y = y := hl.2
  have hnext : l.next y = y := hl.1
  apply hR.congr
  intro z _
  unfold listDelEntry
  rw [hprev, hnext]
  by_cases hz : z = y
  · subst hz
    exact ⟨Links.join_edge.1.trans hnext.symm, Links.join_edge.2.trans hprev.symm⟩
  · exact ⟨Links.join_next hz, Links.join_prev hz⟩

/-- `list_del` of a node that is in no list. -/
theorem listDel_again (hR : Holds l R) (hy : (y, []) ∈ R) : Holds (listDel l y) R :=
  listInit_again (listDelEntry_again hR hy) hy

/-- `list_del`. -/
theorem listDel_holds (hR : Holds l R) (hr : ∃ r ∈ R, y ∈ r.2) :
    Holds (listDel l y) ((y, []) :: R.map fun r => (r.1, r.2.erase y)) := by
  obtain ⟨r₀, hr₀, hyr₀⟩ := hr
  obtain ⟨R₁, r, R₂, rfl, hyr, hout⟩ := exists_ring_of_mem hR.nodup
    (mem_nodes.mpr ⟨r₀, hr₀, List.mem_cons_of_mem _ hyr₀⟩)
  have hr : r ∈ R₁ ++ r :: R₂ := by simp
  have hyr₂ : y ∈ r.2 := by
    by_cases he : r₀ = r
    · exact he ▸ hyr₀
    · exact absurd (List.mem_cons_of_mem _ hyr₀) (hout r₀ (by simpa [he] using hr₀))
  have hl := hR.ring r hr
  have hnd := hR.nodup_of_mem hr
  obtain ⟨hnext, hprev⟩ := hl.mem hyr
  obtain ⟨pre, post, heq, hpre, hne⟩ := exists_pre hyr₂ hnd
  have herase : r.2.erase y = pre ++ post := by
    rw [heq, List.erase_append_right _ hpre, List.erase_cons_head]
  have hperm : (r.1 :: r.2).Perm (y :: r.1 :: (pre ++ post)) := heq ▸ perm_insert pre post
  have hbetween : IsRing (l.join (l.prev y) (l.next y)) r.1 (pre ++ post) :=
    (heq ▸ hl).remove_at (heq ▸ hnd)
  have hrest : ∀ z ∈ r.1 :: (pre ++ post), z ≠ y := by
    rintro z hz rfl
    exact (List.nodup_cons.mp (hperm.nodup_iff.mp hnd)).1 hz
  have hring : IsRing (listDel l y) r.1 (pre ++ post) := hbetween.congr
    (fun z hz => listInit_next (hrest z hz)) fun z hz => listInit_prev (hrest z hz)
  rw [map_eq_of_not_mem (x := y) (fun r' hr' => ?_) hout, herase]
  · refine Holds.perm (hR.replace [] [(y, []), (r.1, pre ++ post)] ?_ .nil nofun ?_
      fun z _ hz => ?_) List.perm_middle.symm
    · simpa using hperm.symm
    · simp only [List.mem_cons, List.not_mem_nil, or_false, forall_eq_or_imp, forall_eq]
      exact ⟨listInit_ring, hring⟩
    · have hzy : z ≠ y := fun he => hz (he ▸ hyr)
      have hzn : z ≠ l.next y := fun he => hz (he ▸ hnext)
      have hzp : z ≠ l.prev y := fun he => hz (he ▸ hprev)
      exact ⟨(listInit_next hzy).trans (Links.join_next hzp),
        (listInit_prev hzy).trans (Links.join_prev hzn)⟩
  · rw [List.erase_of_not_mem fun hm => hr' (List.mem_cons_of_mem _ hm)]

/-- `__list_del_entry`: to the other nodes it is `list_del`. -/
theorem listDelEntry_holds (hR : Holds l R) (hr : ∃ r ∈ R, y ∈ r.2) :
    Holds (listDelEntry l y) (R.map fun r => (r.1, r.2.erase y)) := by
  have hdel := listDel_holds hR hr
  apply (hdel.sublist (List.sublist_cons_self ..)).congr
  intro z hz
  have hzy : z ≠ y := by
    rintro rfl
    exact (List.nodup_cons.mp hdel.nodup).1 hz
  exact ⟨(listInit_next hzy).symm, (listInit_prev hzy).symm⟩

/-! ## Looking -/

theorem mem_of_entries (hh : entries R h = some xs) : (h, xs) ∈ R := by
  obtain ⟨r, hr, rfl⟩ := Option.map_eq_some_iff.mp hh
  have hmem := List.mem_of_find?_eq_some hr
  have heq : r.1 = h := by simpa using List.find?_some hr
  rwa [← heq]

theorem holds_entries (hR : Holds l R) (hh : entries R h = some xs) :
    IsRing l h xs ∧ (h :: xs).Nodup :=
  have hmem := mem_of_entries hh
  ⟨hR.ring _ hmem, hR.nodup_of_mem hmem⟩

theorem listIsEmpty_eq (hl : IsRing l h xs) (hnd : (h :: xs).Nodup) :
    listIsEmpty l h = xs.isEmpty := by
  rw [Bool.eq_iff_iff, List.isEmpty_iff, ← hl.next_eq_iff hnd]
  exact decide_eq_true_iff

theorem listIsEmptyCareful_eq (hl : IsRing l h xs) (hnd : (h :: xs).Nodup) :
    listIsEmptyCareful l h = xs.isEmpty := by
  rw [Bool.eq_iff_iff, List.isEmpty_iff, ← hl.next_eq_iff hnd]
  simp only [listIsEmptyCareful, decide_eq_true_iff]
  refine ⟨fun hb => hb.1, fun hn => ⟨hn, ?_⟩⟩
  have hundo := hl.undo_first.1
  rw [hn] at hundo ⊢
  exact hundo.symm

/-- `list_is_first`, for any node. -/
theorem listIsFirst_eq (hR : Holds l R) (hh : entries R h = some xs) (hy : y ∈ R.nodes) :
    listIsFirst l y h = decide ((xs ++ [h]).head? = some y) := by
  have hl := (holds_entries hR hh).1
  rw [Bool.eq_iff_iff, decide_eq_true_iff, hl.head?_next, Option.some.injEq]
  refine Iff.trans decide_eq_true_iff ⟨?_, ?_⟩
  · rintro rfl
    exact (hR.undo hy).2
  · rintro rfl
    exact hl.undo_first.1

/-- `list_is_last`, for any node. -/
theorem listIsLast_eq (hR : Holds l R) (hh : entries R h = some xs) (hy : y ∈ R.nodes) :
    listIsLast l y h = decide ((h :: xs).getLast? = some y) := by
  have hl := (holds_entries hR hh).1
  rw [Bool.eq_iff_iff, decide_eq_true_iff, hl.getLast?_prev, Option.some.injEq]
  refine Iff.trans decide_eq_true_iff ⟨?_, ?_⟩
  · rintro rfl
    exact (hR.undo hy).1
  · rintro rfl
    exact hl.undo_first.2

/-- `list_for_each` from a node of the ring on. -/
theorem listForEach_leads (hl : Leads l x ys h) (hh : h ∉ ys) (n : Nat) :
    listForEach l h n (l.next x) = (ys.take n, decide (ys.length ≤ n)) := by
  induction ys generalizing x n with
  | nil =>
      have hx : l.next x = h := hl.1
      cases n <;> simp [listForEach, hx]
  | cons y ys ih =>
      simp only [List.mem_cons, not_or] at hh
      have hx : l.next x = y := hl.1.1
      cases n with
      | zero => simp [listForEach, hx, Ne.symm hh.1]
      | succ n => simp [listForEach, hx, Ne.symm hh.1, ih hl.2 hh.2]

theorem listForEach_eq (hl : IsRing l h xs) (hnd : (h :: xs).Nodup) (n : Nat) :
    listForEach l h n (l.next h) = (xs.take n, decide (xs.length ≤ n)) :=
  listForEach_leads hl (List.nodup_cons.mp hnd).1 n

/-! ## Every call -/

theorem seqAdd_holds {put : α → α → α × List α → α × List α}
    (hput : ∀ {S : RingSet α}, Holds l S → new ∉ S.nodes → x ∈ S.nodes →
      Holds l' (S.map (put x new)))
    (hR : Holds l R) (h : seqAdd put R new x = .ok R') : Holds l' R' := by
  unfold seqAdd at h
  dsimp only at h
  split at h
  · cases h
  · rename_i hnew
    split at h
    · rename_i hx
      cases h
      exact hput (hR.sublist List.erase_sublist) hnew hx
    · cases h

theorem seqDelEntry_holds (hR : Holds l R) (h : seqDelEntry R y = .ok R') :
    Holds (listDelEntry l y) R' := by
  unfold seqDelEntry at h
  split at h
  · rename_i hy
    cases h
    exact listDelEntry_again hR hy
  · split at h
    · rename_i hy
      cases h
      exact listDelEntry_holds hR (by simpa using hy)
    · cases h

theorem seqDel_holds (hR : Holds l R) (h : seqDel R y = .ok R') : Holds (listDel l y) R' := by
  unfold seqDel at h
  split at h
  · rename_i hy
    cases h
    exact listDel_again hR hy
  · split at h
    · rename_i hy
      cases h
      exact listDel_holds hR (by simpa using hy)
    · cases h

/-- `list_for_each_head_dell`. -/
theorem seqDrain_holds {b : Bool} (hR : Holds l R) (hd : seqDrain R h n = .ok (R', xs, b)) :
    ∃ l', listForEachHeadDell l h n = (l', xs, b) ∧ Holds l' R' := by
  induction n generalizing l R xs with
  | zero =>
      cases hh : entries R h with
      | none => simp [seqDrain, hh, throw, throwThe, MonadExceptOf.throw] at hd
      | some ys =>
          obtain ⟨hl, hnd⟩ := holds_entries hR hh
          simp only [seqDrain, hh, pure, Except.pure, Except.ok.injEq, Prod.mk.injEq] at hd
          obtain ⟨rfl, rfl, rfl⟩ := hd
          exact ⟨l, by rw [← listIsEmpty_eq hl hnd]; rfl, hR⟩
  | succ n ih =>
      cases hh : entries R h with
      | none => simp [seqDrain, hh, throw, throwThe, MonadExceptOf.throw] at hd
      | some ys =>
          obtain ⟨hl, hnd⟩ := holds_entries hR hh
          cases ys with
          | nil =>
              have hnext : l.next h = h := hl.1
              simp only [seqDrain, hh, pure, Except.pure, Except.ok.injEq, Prod.mk.injEq] at hd
              obtain ⟨rfl, rfl, rfl⟩ := hd
              exact ⟨l, by simp only [listForEachHeadDell, hnext, if_true], hR⟩
          | cons x ys =>
              have hnext : l.next h = x := hl.1.1
              have hne : x ≠ h := by
                rintro rfl
                simp at hnd
              simp only [seqDrain, hh] at hd
              obtain ⟨R₁, hdel, hd⟩ := exists_of_bind_ok hd
              obtain ⟨⟨R₂, zs, c⟩, hrest, hd⟩ := exists_of_bind_ok hd
              cases hd
              obtain ⟨l', heq, hR'⟩ := ih (seqDel_holds hR hdel) hrest
              refine ⟨l', ?_, hR'⟩
              simp only [listForEachHeadDell, hnext, if_neg hne, heq]

/-- The pointers and what has been seen are those of the sequences. -/
structure SameLists (s : Seqs α) (m : ListMach α) : Prop where
  holds : Holds m.links s.lists
  seen : m.seen = s.seen

variable {s s' : Seqs α} {m m' : ListMach α}

theorem SameLists.ask (hs : SameLists s m) {f : List α → Seen α} {v : Seen α}
    (hv : ∀ xs, entries s.lists h = some xs → v = f xs) (hask : s.ask h f = .ok s') :
    SameLists s' (m.see v) := by
  unfold Seqs.ask at hask
  cases hh : entries s.lists h with
  | none => simp [hh] at hask
  | some xs =>
      simp only [hh, Except.ok.injEq] at hask
      subst hask
      rw [hv xs hh]
      exact ⟨hs.holds, congrArg _ hs.seen⟩

/-- **One call.** -/
theorem SameLists.step (hs : SameLists s m) (op : ListOp α) (h : seqStep s op = .ok s') :
    ∃ m', listStep m op = .ok m' ∧ SameLists s' m' := by
  have hR := hs.holds
  cases op with
  | init list =>
      refine ⟨_, rfl, ?_⟩
      simp only [seqStep] at h
      split at h
      · rename_i hin
        cases h
        exact ⟨listInit_again hR hin, hs.seen⟩
      · split at h
        · cases h
        · rename_i hout
          cases h
          exact ⟨listInit_holds hR hout, hs.seen⟩
  | add new head =>
      obtain ⟨R, hR', rfl⟩ := exists_of_map_ok h
      exact ⟨_, rfl, ⟨seqAdd_holds listAdd_holds hR hR', hs.seen⟩⟩
  | addTail new head =>
      obtain ⟨R, hR', rfl⟩ := exists_of_map_ok h
      exact ⟨_, rfl, ⟨seqAdd_holds listAddTail_holds hR hR', hs.seen⟩⟩
  | delEntry entry =>
      obtain ⟨R, hR', rfl⟩ := exists_of_map_ok h
      exact ⟨_, rfl, ⟨seqDelEntry_holds hR hR', hs.seen⟩⟩
  | del entry =>
      obtain ⟨R, hR', rfl⟩ := exists_of_map_ok h
      exact ⟨_, rfl, ⟨seqDel_holds hR hR', hs.seen⟩⟩
  | move list head =>
      obtain ⟨R₁, hdel, h⟩ := exists_of_bind_ok h
      obtain ⟨R₂, hadd, h⟩ := exists_of_bind_ok h
      cases h
      have hmoved : Holds (listAdd (listDel m.links list) list head) R₂ :=
        seqAdd_holds listAdd_holds (seqDel_holds hR hdel) hadd
      exact ⟨_, rfl, ⟨hmoved, hs.seen⟩⟩
  | moveTail list head =>
      obtain ⟨R₁, hdel, h⟩ := exists_of_bind_ok h
      obtain ⟨R₂, hadd, h⟩ := exists_of_bind_ok h
      cases h
      have hmoved : Holds (listAddTail (listDel m.links list) list head) R₂ :=
        seqAdd_holds listAddTail_holds (seqDel_holds hR hdel) hadd
      exact ⟨_, rfl, ⟨hmoved, hs.seen⟩⟩
  | isEmpty head =>
      refine ⟨_, rfl, hs.ask (fun xs hh => ?_) h⟩
      obtain ⟨hl, hnd⟩ := holds_entries hR hh
      rw [listIsEmpty_eq hl hnd]
  | isEmptyCareful head =>
      refine ⟨_, rfl, hs.ask (fun xs hh => ?_) h⟩
      obtain ⟨hl, hnd⟩ := holds_entries hR hh
      rw [listIsEmptyCareful_eq hl hnd]
  | isFirst list head =>
      refine ⟨_, rfl, ?_⟩
      simp only [seqStep] at h
      split at h
      · rename_i hy
        exact hs.ask (fun xs hh => by rw [listIsFirst_eq hR hh hy]) h
      · cases h
  | isLast list head =>
      refine ⟨_, rfl, ?_⟩
      simp only [seqStep] at h
      split at h
      · rename_i hy
        exact hs.ask (fun xs hh => by rw [listIsLast_eq hR hh hy]) h
      · cases h
  | forEach head n =>
      refine ⟨_, rfl, hs.ask (fun xs hh => ?_) h⟩
      obtain ⟨hl, hnd⟩ := holds_entries hR hh
      rw [listForEach_eq hl hnd]
  | forEachHeadDell head n =>
      obtain ⟨⟨R', xs, b⟩, hd, h⟩ := exists_of_bind_ok h
      cases h
      obtain ⟨l', heq, hR'⟩ := seqDrain_holds hR hd
      refine ⟨_, rfl, ?_, ?_⟩
      · simp only [ListMach.to, ListMach.see, heq]
        exact hR'
      · simp only [ListMach.to, ListMach.see, heq, hs.seen]

/-- **Lists are sequences.**  In any run of calls on any nodes, each made where the sequences
allow it, callers see with the pointers what they see with the sequences.  In the end the
pointers lead from each head through the entries of its list, in both directions. -/
theorem lists_run (m : ListMach α) (hm : m.seen = []) (ops : List (ListOp α)) (s : Seqs α)
    (hrun : run seqStep ops ⟨[], []⟩ = .ok s) :
    ∃ m', run listStep ops m = .ok m' ∧ m'.seen = s.seen ∧
      ∀ h xs, entries s.lists h = some xs →
        listForEach m'.links h xs.length (m'.links.next h) = (xs, true) ∧
        IsRing m'.links h xs := by
  have hsim : ∃ m', run listStep ops m = .ok m' ∧ SameLists s m' :=
    run_sim SameLists (fun _ _ op _ hs hop => hs.step op hop) ops ⟨[], []⟩ s m ⟨.nil, hm⟩ hrun
  obtain ⟨m', hm', hs⟩ := hsim
  refine ⟨m', hm', hs.seen, fun h xs hh => ?_⟩
  obtain ⟨hl, hnd⟩ := holds_entries hs.holds hh
  refine ⟨?_, hl⟩
  rw [listForEach_eq hl hnd, List.take_length, decide_eq_true (Nat.le_refl _)]

/-- Two lists, with an entry between others, one that moves, and two that leave and come back. -/
def twoLists : List (ListOp Nat) :=
  [.init 0, .init 1, .add 10 0, .addTail 11 0, .add 12 10, .forEach 0 3, .isFirst 10 0,
   .move 11 1, .isLast 12 0, .del 10, .isEmpty 1, .addTail 10 1, .delEntry 12, .add 12 0,
   .forEachHeadDell 1 1]

theorem lists_run_twoLists :
    ∃ m', run listStep twoLists ⟨⟨fun _ => 5, fun _ => 7⟩, []⟩ = .ok m' ∧
      m'.seen = [.nodes [11] false, .bool false, .bool true, .bool true,
        .nodes [10, 12, 11] true] ∧
      listForEach m'.links 0 1 (m'.links.next 0) = ([12], true) ∧
      listForEach m'.links 1 1 (m'.links.next 1) = ([10], true) := by
  have hok : okAnd (run seqStep twoLists ⟨[], []⟩) (fun s =>
      s.seen == [.nodes [11] false, .bool false, .bool true, .bool true,
        .nodes [10, 12, 11] true] &&
      (entries s.lists 0 == some [12] && entries s.lists 1 == some [10])) = true := by decide
  obtain ⟨s, hrun, htest⟩ := exists_of_okAnd hok
  simp only [Bool.and_eq_true, beq_iff_eq] at htest
  obtain ⟨hseen, h0, h1⟩ := htest
  obtain ⟨m', hm', hseen', hall⟩ := lists_run ⟨⟨fun _ => 5, fun _ => 7⟩, []⟩ rfl twoLists s hrun
  exact ⟨m', hm', hseen'.trans hseen, (hall 0 _ h0).1, (hall 1 _ h1).1⟩

end Cosmos.Bastypeinc
