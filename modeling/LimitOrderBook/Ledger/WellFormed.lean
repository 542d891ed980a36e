import LimitOrderBook.Ledger.Defs

/-!
# Well-formed ledgers

The lists of a ledger are sorted, their members and those of the queues exist, an
order is in at most one queue – that of the level it remembers – and an entry of
the index leads to an order with its id that has been in a queue
(`LimitOrderBook.Ledger.WellFormed`). Every operation keeps this.

Not every resting order need be in the index, nor every entry of the index rest in
a queue: that is left to the statements about the code.
-/

namespace LimitOrderBook

namespace Ledger

/-- **What every ledger of a book satisfies.** -/
structure WellFormed (L : Ledger) : Prop where
  levels_sorted : ∀ b, SortedKeys (L.limitLess b) (L.levels b)
  levels_lt : ∀ b, ∀ l ∈ L.levels b, l < L.nextLimit
  queue_lt : ∀ l, ∀ o ∈ L.queue l, o < L.nextOrder
  queue_nodup : ∀ l, (L.queue l).Nodup
  queue_parent : ∀ l, ∀ o ∈ L.queue l, L.parent o = some l
  parent_lt : ∀ o l, L.parent o = some l → l < L.nextLimit
  stops_sorted : ∀ b, SortedKeys (L.stopLess b) (L.stops b)
  stops_lt : ∀ b, ∀ o ∈ L.stops b, o < L.nextOrder
  dates_sorted : SortedKeys L.dateLess L.dates
  dates_lt : ∀ o ∈ L.dates, o < L.nextOrder
  entry_lt : ∀ id o, L.orders.lookup id = some o → o < L.nextOrder
  entry_id : ∀ id o, L.orders.lookup id = some o → (L.order o).id = id
  entry_parent : ∀ id o, L.orders.lookup id = some o → ∃ l, L.parent o = some l

theorem wellFormed_empty (instrument : String) (marketPrice : ℚ) :
    (empty instrument marketPrice).WellFormed where
  levels_sorted := fun _ => List.Pairwise.nil
  levels_lt := by simp [empty]
  queue_lt := by simp [empty]
  queue_nodup := by simp [empty]
  queue_parent := by simp [empty]
  parent_lt := by simp [empty]
  stops_sorted := fun _ => List.Pairwise.nil
  stops_lt := by simp [empty]
  dates_sorted := List.Pairwise.nil
  dates_lt := by simp [empty]
  entry_lt := by simp [empty]
  entry_id := by simp [empty]
  entry_parent := by simp [empty]

/-- How levels compare when they change, but not their prices. -/
theorem limitLess_congr {L L' : Ledger} (hp : ∀ l, (L'.limit l).price = (L.limit l).price)
    (b : Bool) : L'.limitLess b = L.limitLess b := by
  funext x y
  rw [limitLess, limitLess, limitComparator, limitComparator, hp x, hp y]

/-- An entry of the smaller index is one of the index. -/
theorem lookup_of_erase {m : AList fun _ : String => ℕ} {id id' : String} {o : ℕ}
    (h : (m.erase id').lookup id = some o) : m.lookup id = some o := by
  by_cases hid : id = id'
  · rw [hid, AList.lookup_erase] at h
    exact absurd h (by simp)
  · rwa [AList.lookup_erase_ne hid] at h

/-- An order that is in the ledger does not change when there is a new one. -/
theorem allocOrder_order_old {L : Ledger} {o : ℕ} (ho : o < L.nextOrder) (x : OrderData) :
    (L.allocOrder x).order o = L.order o :=
  Function.update_of_ne (ne_of_lt ho) _ _

theorem allocOrder_order_new (L : Ledger) (x : OrderData) :
    (L.allocOrder x).order L.nextOrder = x :=
  Function.update_self _ _ _

theorem keeps_updateData (L : Ledger) (o : ℕ) {f : OrderData → OrderData}
    (hf : ∀ x, (f x).Keeps x) (x : ℕ) : ((L.updateData o f).order x).Keeps (L.order x) := by
  by_cases hx : x = o
  · subst hx
    rw [updateData_order, Function.update_self]
    exact hf _
  · rw [updateData_order, Function.update_of_ne hx]
    exact .refl _

namespace WellFormed

variable {L : Ledger} (h : L.WellFormed) {o l : ℕ} {b : Bool}

include h

/-- An order is in one queue only. -/
theorem queue_unique {l' : ℕ} (ho : o ∈ L.queue l) (ho' : o ∈ L.queue l') : l' = l := by
  have h₁ := h.queue_parent l o ho
  rw [h.queue_parent l' o ho', Option.some.injEq] at h₁
  exact h₁

/-! ### Changes to objects -/

theorem updateData {f : OrderData → OrderData} (hf : ∀ x, (f x).Keeps x) :
    (L.updateData o f).WellFormed := by
  have hkeep := L.keeps_updateData o hf
  have hstop : ∀ b, (L.updateData o f).stopLess b = L.stopLess b := fun b => by
    funext x y
    rw [stopLess, stopLess, orderComparator, orderComparator, (hkeep x).price, (hkeep y).price,
      (hkeep x).timestamp, (hkeep y).timestamp]
  have hdate : (L.updateData o f).dateLess = L.dateLess := by
    funext x y
    rw [dateLess, dateLess, dateOrderComparator, dateOrderComparator, (hkeep x).expireTime,
      (hkeep y).expireTime]
  refine { h with stops_sorted := fun b => ?_, dates_sorted := ?_, entry_id := fun id x hx => ?_ }
  · rw [hstop]
    exact h.stops_sorted b
  · rw [hdate]
    exact h.dates_sorted
  · rw [(hkeep x).id]
    exact h.entry_id id x hx

theorem allocOrder (x : OrderData) : (L.allocOrder x).WellFormed := by
  have hne : ∀ y, y < L.nextOrder → y ≠ L.nextOrder := fun y hy => ne_of_lt hy
  have hold : ∀ y, y < L.nextOrder → (L.allocOrder x).order y = L.order y := fun y hy =>
    allocOrder_order_old hy x
  have hpar : ∀ y, y < L.nextOrder → (L.allocOrder x).parent y = L.parent y := fun y hy =>
    Function.update_of_ne (hne y hy) _ _
  refine
    { h with
      queue_lt := fun l y hy => Nat.lt_succ_of_lt (h.queue_lt l y hy)
      queue_parent := fun l y hy => (hpar y (h.queue_lt l y hy)).trans (h.queue_parent l y hy)
      parent_lt := fun y l hy => ?_
      stops_sorted := fun b => ?_
      stops_lt := fun b y hy => Nat.lt_succ_of_lt (h.stops_lt b y hy)
      dates_sorted := ?_
      dates_lt := fun y hy => Nat.lt_succ_of_lt (h.dates_lt y hy)
      entry_lt := fun id y hy => Nat.lt_succ_of_lt (h.entry_lt id y hy)
      entry_id := fun id y hy => ?_
      entry_parent := fun id y hy => ?_ }
  · by_cases hyn : y = L.nextOrder
    · simp [hyn] at hy
    · rw [allocOrder_parent, Function.update_of_ne hyn] at hy
      exact h.parent_lt y l hy
  · refine (h.stops_sorted b).congr fun y hy z hz => ?_
    rw [stopLess, stopLess, hold y (h.stops_lt b y hy), hold z (h.stops_lt b z hz)]
  · refine h.dates_sorted.congr fun y hy z hz => ?_
    rw [dateLess, dateLess, hold y (h.dates_lt y hy), hold z (h.dates_lt z hz)]
  · rw [hold y (h.entry_lt id y hy)]
    exact h.entry_id id y hy
  · rw [hpar y (h.entry_lt id y hy)]
    exact h.entry_parent id y hy

theorem allocLimit (price : ℚ) : (L.allocLimit price).WellFormed := by
  have hold : ∀ l, l < L.nextLimit → (L.allocLimit price).limit l = L.limit l := fun l hl =>
    Function.update_of_ne (ne_of_lt hl) _ _
  have hsub : ∀ l o, o ∈ (L.allocLimit price).queue l → o ∈ L.queue l := by
    intro l o ho
    by_cases hl : l = L.nextLimit
    · simp [hl] at ho
    · rwa [allocLimit_queue, Function.update_of_ne hl] at ho
  refine
    { h with
      levels_sorted := fun b => ?_
      levels_lt := fun b l hl => Nat.lt_succ_of_lt (h.levels_lt b l hl)
      queue_lt := fun l o ho => h.queue_lt l o (hsub l o ho)
      queue_nodup := fun l => ?_
      queue_parent := fun l o ho => h.queue_parent l o (hsub l o ho)
      parent_lt := fun o l ho => Nat.lt_succ_of_lt (h.parent_lt o l ho) }
  · refine (h.levels_sorted b).congr fun x hx y hy => ?_
    rw [limitLess, limitLess, hold x (h.levels_lt b x hx), hold y (h.levels_lt b y hy)]
  · by_cases hl : l = L.nextLimit
    · simp [hl]
    · rw [allocLimit_queue, Function.update_of_ne hl]
      exact h.queue_nodup l

/-! ### Changes to queues -/

theorem updateLimitData {f : LimitData → LimitData} (hf : ∀ x, (f x).price = x.price) :
    (L.updateLimitData l f).WellFormed := by
  have hprice : ∀ x, ((L.updateLimitData l f).limit x).price = (L.limit x).price := by
    intro x
    by_cases hx : x = l
    · subst hx
      simp [hf]
    · simp [hx]
  refine { h with levels_sorted := fun b => ?_ }
  rw [limitLess_congr hprice]
  exact h.levels_sorted b

theorem setParent (hfree : ∀ x, o ∉ L.queue x) (hl : l < L.nextLimit) :
    (L.setParent o l).WellFormed := by
  have hpar : ∀ x, x ≠ o → (L.setParent o l).parent x = L.parent x := fun x hx =>
    Function.update_of_ne hx _ _
  have hself : (L.setParent o l).parent o = some l := Function.update_self _ _ _
  refine
    { h with
      queue_parent := fun x y hy => ?_
      parent_lt := fun y x hy => ?_
      entry_parent := fun id y hy => ?_ }
  · rw [hpar y fun he => hfree x (he ▸ hy)]
    exact h.queue_parent x y hy
  · by_cases hyo : y = o
    · subst hyo
      rw [hself, Option.some.injEq] at hy
      exact hy ▸ hl
    · rw [hpar y hyo] at hy
      exact h.parent_lt y x hy
  · by_cases hyo : y = o
    · exact ⟨l, hyo ▸ hself⟩
    · rw [hpar y hyo]
      exact h.entry_parent id y hy

/-- An order that is in no queue enters the one of its level, behind the others or
in their place. -/
theorem enterQueue {q : List ℕ} (ho : o < L.nextOrder) (hp : L.parent o = some l)
    (hfree : ∀ x, o ∉ L.queue x) (hq : q = L.queue l ++ [o] ∨ q = [o]) :
    (L.setQueues (Function.update L.queue l q)).WellFormed := by
  have hmem : ∀ x y, y ∈ Function.update L.queue l q x → (y = o ∧ x = l) ∨ y ∈ L.queue x := by
    intro x y hy
    by_cases hx : x = l
    · subst hx
      rw [Function.update_self] at hy
      rcases hq with rfl | rfl
      · rcases List.mem_append.mp hy with hy | hy
        · exact Or.inr hy
        · exact Or.inl ⟨by simpa using hy, rfl⟩
      · exact Or.inl ⟨by simpa using hy, rfl⟩
    · rw [Function.update_of_ne hx] at hy
      exact Or.inr hy
  refine
    { h with
      queue_lt := fun x y hy => ?_
      queue_nodup := fun x => ?_
      queue_parent := fun x y hy => ?_ }
  · rcases hmem x y hy with ⟨rfl, -⟩ | hy
    · exact ho
    · exact h.queue_lt x y hy
  · rw [setQueues_queue]
    by_cases hx : x = l
    · subst hx
      rw [Function.update_self]
      rcases hq with rfl | rfl
      · refine List.nodup_append.mpr ⟨h.queue_nodup x, List.nodup_singleton o, ?_⟩
        rintro y hy z hz rfl
        exact hfree x (by rwa [List.mem_singleton.mp hz] at hy)
      · exact List.nodup_singleton o
    · rw [Function.update_of_ne hx]
      exact h.queue_nodup x
  · rcases hmem x y hy with ⟨rfl, rfl⟩ | hy
    · exact hp
    · exact h.queue_parent x y hy

/-- Putting an order that is in no queue into a queue. -/
theorem place {q : List ℕ} (ho : o < L.nextOrder) (hl : l < L.nextLimit)
    (hfree : ∀ x, o ∉ L.queue x) (hq : q = L.queue l ++ [o] ∨ q = [o]) :
    (L.place o l q).WellFormed := by
  have hp : (L.setParent o l).parent o = some l := Function.update_self _ _ _
  have hqueue := (h.setParent hfree hl).enterQueue ho hp hfree hq
  refine hqueue.updateLimitData (l := l) (f := fun x => x.increaseVolume (L.qty o)) ?_
  exact fun _ => rfl

theorem openLevel {limit : ℕ} (hl : limit < L.nextLimit) : (L.openLevel limit b).WellFormed := by
  refine { h with levels_sorted := fun c => ?_, levels_lt := fun c x hx => ?_ }
  · change SortedKeys (L.limitLess c) _
    by_cases hc : c = b
    · subst hc
      rw [openLevel_levels, Function.update_self]
      exact (h.levels_sorted c).insertKey (L.limitLess_strictWeak c) limit
    · rw [openLevel_levels, Function.update_of_ne hc]
      exact h.levels_sorted c
  · rw [openLevel_levels] at hx
    by_cases hc : c = b
    · subst hc
      rw [Function.update_self] at hx
      rcases (mem_insertKey (L.limitLess_strictWeak c) (h.levels_sorted c)).mp hx with rfl | hx
      · exact hl
      · exact h.levels_lt c x hx.1
    · rw [Function.update_of_ne hc] at hx
      exact h.levels_lt c x hx

theorem addLimitOrder {limit : ℕ} (ho : o < L.nextOrder) (hl : limit < L.nextLimit)
    (hfree : ∀ l, o ∉ L.queue l) : (L.addLimitOrder o limit b).WellFormed := by
  rw [Ledger.addLimitOrder]
  split
  · rename_i l hfind
    have hmem := (findKey_eq_some (L.limitLess_strictWeak b) (h.levels_sorted b)).mp hfind
    exact h.place ho (h.levels_lt b l hmem.1) hfree (Or.inl rfl)
  · exact (h.openLevel hl).place ho hl hfree (Or.inr rfl)

/-- An order leaves the queue of a level. -/
theorem eraseQueue :
    (L.setQueues (Function.update L.queue l ((L.queue l).erase o))).WellFormed := by
  have hsub : ∀ x y, y ∈ Function.update L.queue l ((L.queue l).erase o) x → y ∈ L.queue x := by
    intro x y hy
    by_cases hx : x = l
    · subst hx
      rw [Function.update_self] at hy
      exact List.mem_of_mem_erase hy
    · rwa [Function.update_of_ne hx] at hy
  refine
    { h with
      queue_lt := fun x y hy => h.queue_lt x y (hsub x y hy)
      queue_nodup := fun x => ?_
      queue_parent := fun x y hy => h.queue_parent x y (hsub x y hy) }
  by_cases hx : x = l
  · subst hx
    rw [setQueues_queue, Function.update_self]
    exact (h.queue_nodup x).erase o
  · rw [setQueues_queue, Function.update_of_ne hx]
    exact h.queue_nodup x

theorem eraseEntry : (L.eraseEntry o).WellFormed :=
  { h with
    entry_lt := fun _ y hy => h.entry_lt _ y (lookup_of_erase hy)
    entry_id := fun _ y hy => h.entry_id _ y (lookup_of_erase hy)
    entry_parent := fun _ y hy => h.entry_parent _ y (lookup_of_erase hy) }

theorem displace : (L.displace o l).WellFormed := by
  have hlimit := h.updateLimitData (l := l)
    (f := fun x => (x.decreaseVolume (L.qty o)).decreaseNumberOfOrders) fun _ => rfl
  exact (hlimit.eraseQueue (o := o)).eraseEntry (o := o)

theorem removeLimitOrder : (L.removeLimitOrder o).WellFormed := by
  rw [Ledger.removeLimitOrder]
  split
  · exact h
  · exact h.displace

/-! ### Changes to the other lists -/

theorem addStopOrder (ho : o < L.nextOrder) : (L.addStopOrder o b).WellFormed := by
  refine { h with stops_sorted := fun c => ?_, stops_lt := fun c x hx => ?_ }
  · change SortedKeys (L.stopLess c) _
    by_cases hc : c = b
    · subst hc
      rw [addStopOrder_stops, Function.update_self]
      exact (h.stops_sorted c).insertKey (L.stopLess_strictWeak c) o
    · rw [addStopOrder_stops, Function.update_of_ne hc]
      exact h.stops_sorted c
  · by_cases hc : c = b
    · subst hc
      rw [addStopOrder_stops, Function.update_self,
        mem_insertKey (L.stopLess_strictWeak c) (h.stops_sorted c)] at hx
      rcases hx with rfl | hx
      · exact ho
      · exact h.stops_lt c x hx.1
    · rw [addStopOrder_stops, Function.update_of_ne hc] at hx
      exact h.stops_lt c x hx

theorem removeStopOrder : (L.removeStopOrder o).WellFormed := by
  refine
    { h with
      stops_sorted := fun c => ?_
      stops_lt := fun c x hx => ?_
      entry_lt := fun id y hy => h.entry_lt id y (lookup_of_erase hy)
      entry_id := fun id y hy => h.entry_id id y (lookup_of_erase hy)
      entry_parent := fun id y hy => h.entry_parent id y (lookup_of_erase hy) }
  · change SortedKeys (L.stopLess c) _
    rw [removeStopOrder_stops]
    by_cases hc : c = (L.order o).isBuy
    · subst hc
      rw [Function.update_self]
      exact (h.stops_sorted _).eraseKey o
    · rw [Function.update_of_ne hc]
      exact h.stops_sorted c
  · rw [removeStopOrder_stops] at hx
    by_cases hc : c = (L.order o).isBuy
    · subst hc
      rw [Function.update_self,
        mem_eraseKey (L.stopLess_strictWeak _) (h.stops_sorted _)] at hx
      exact h.stops_lt _ x hx.1
    · rw [Function.update_of_ne hc] at hx
      exact h.stops_lt c x hx

theorem insertDate (ho : o < L.nextOrder) : (L.insertDate o).WellFormed := by
  refine { h with dates_sorted := ?_, dates_lt := fun x hx => ?_ }
  · exact h.dates_sorted.insertKey L.dateLess_strictWeak o
  · rcases (mem_insertKey L.dateLess_strictWeak h.dates_sorted).mp hx with rfl | hx
    · exact ho
    · exact h.dates_lt x hx.1

theorem eraseDate : (L.eraseDate o).WellFormed := by
  refine { h with dates_sorted := ?_, dates_lt := fun x hx => ?_ }
  · exact h.dates_sorted.eraseKey o
  · exact h.dates_lt x ((mem_eraseKey L.dateLess_strictWeak h.dates_sorted).mp hx).1

theorem insertEntry (ho : o < L.nextOrder) (hp : ∃ l, L.parent o = some l) :
    (L.insertEntry o).WellFormed := by
  have hcase : ∀ id x, (L.orders.insert (L.order o).id o).lookup id = some x →
      (id = (L.order o).id ∧ x = o) ∨ L.orders.lookup id = some x := by
    intro id x hx
    by_cases hid : id = (L.order o).id
    · subst hid
      rw [AList.lookup_insert, Option.some.injEq] at hx
      exact Or.inl ⟨rfl, hx.symm⟩
    · rw [AList.lookup_insert_ne hid] at hx
      exact Or.inr hx
  refine
    { h with
      entry_lt := fun id x hx => ?_
      entry_id := fun id x hx => ?_
      entry_parent := fun id x hx => ?_ }
  · rcases hcase id x hx with ⟨-, rfl⟩ | hx
    · exact ho
    · exact h.entry_lt id x hx
  · rcases hcase id x hx with ⟨rfl, rfl⟩ | hx
    · rfl
    · exact h.entry_id id x hx
  · rcases hcase id x hx with ⟨-, rfl⟩ | hx
    · exact hp
    · exact h.entry_parent id x hx

end WellFormed

end Ledger

end LimitOrderBook
