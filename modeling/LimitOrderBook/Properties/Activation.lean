import LimitOrderBook.OrderBook.Activation
import LimitOrderBook.Ledger.Shelved
import LimitOrderBook.Ledger.Recovered

/-!
# Activating stop orders

Both functions go through a stop tree until they come to an order that is not triggered. The
trees are sorted by limit price and time, and what is looked at is the stop price, so that a
triggered order can come after one that is not; it is then not reached. Bids are gone through
from the highest limit price on, and of two with the same limit price from the later one; asks
likewise, but from the earlier one.

The loop itself does no harm: a parked order can be passed to `add_order` like a new one
(`LimitOrderBook.Refines.readd`), and the tree does not change under the iterator when an order
is parked again. So what is activated is the longest part of the tree, from where the iterator
starts, in which every order is triggered (`LimitOrderBook.Refines.activate`), and these are all
that are triggered exactly if none of them comes after one that is not
(`LimitOrderBook.stopActivation_iff`).

There is one more condition, on the bids: `rbegin()` reads `_last`, which stays at a freed node
when the last order has left the tree.
-/

namespace LimitOrderBook

open OrderBook (Request)

namespace OrderBook

/-- **The triggered orders of a stop tree are activated**: each is passed to `add_order` once,
no other order is, and these are the orders that leave the tree. What is passed to `add_order`
shows in the queue of the repository, to which it hands its order first of all, and nothing else
that is called here hands over any. -/
def ActivatesExactly (s : OrderBook) (isBuy : Bool) (triggered : OrderData → Prop)
    (after : Except Fault OrderBook) : Prop :=
  ∃ s' stops stops' passed, after = .ok s' ∧ (s.stopOrders isBuy).keys = .ok stops ∧
    (s'.stopOrders isBuy).keys = .ok stops' ∧ s'.orderQueue = s.orderQueue ++ passed ∧
    passed.Nodup ∧ (∀ o, o ∈ passed ↔ o ∈ stops ∧ triggered (s.order o).toOrderData) ∧
    ∀ o, o ∈ stops' ↔ o ∈ stops ∧ o ∉ passed

/-- A parked bid is triggered when one is that comes before it in the tree; and the last pointer
of an empty tree does not dangle. -/
def BidsReached (s : OrderBook) (price : ℚ) : Prop :=
  (s.bidStopOrders.first = RBTree.nil → s.bidStopOrders.last = RBTree.nil) ∧
  ∃ stops, s.getBidStopOrders = .ok stops ∧ ∀ o ∈ stops, ∀ o' ∈ stops,
    s.stopLess true o o' = true → (s.order o).stopPrice ≤ price → (s.order o').stopPrice ≤ price

/-- A parked ask is triggered when one is that comes after it in the tree. -/
def AsksReached (s : OrderBook) (price : ℚ) : Prop :=
  ∃ stops, s.getAskStopOrders = .ok stops ∧ ∀ o ∈ stops, ∀ o' ∈ stops,
    s.stopLess false o' o = true → price ≤ (s.order o).stopPrice → price ≤ (s.order o').stopPrice

end OrderBook

namespace Refines

variable {s s' : OrderBook} {L : Ledger} {b : Bool} {triggered : OrderData → Bool}
  {next : RBTree ℕ → ℕ → Except Fault ℕ}

/-! ### The two loops -/

/-- **The loop that activates** goes on as long as the orders are triggered, along what was the
way of the iterator when it began. -/
theorem addTriggered (h : Refines s L) (hs : s.Orderly)
    (htriggered : ∀ x y : OrderData, x.Keeps y → triggered x = triggered y) (now : ℤ)
    {zs : List (ℕ × ℕ)} {n : ℕ} (hn : zs.length < n)
    (hscan : (s.stopOrders b).Scans (next (s.stopOrders b)) zs) (hnd : (zs.map Prod.snd).Nodup)
    (hpark : ∀ o ∈ zs.map Prod.snd, o ∈ L.stops b ∧ (L.order o).isBuy = b ∧ L.parent o = none) :
    ∃ s' L', OrderBook.addTriggered now b triggered next n s (RBTree.firstPtr zs) =
        .ok (s', (zs.map Prod.snd).takeWhile fun o => triggered (L.order o)) ∧
      Refines s' L' ∧ (∀ c, s'.stopOrders c = s.stopOrders c) ∧
      (∀ x, (L'.order x).Keeps (L.order x)) ∧
      L'.orderQueue =
        L.orderQueue ++ (zs.map Prod.snd).takeWhile fun o => triggered (L.order o) := by
  induction zs generalizing s L n with
  | nil =>
    obtain ⟨n, rfl⟩ : ∃ m, n = m + 1 := ⟨n - 1, by simp at hn; omega⟩
    exact ⟨s, L, rfl, h, fun _ => rfl, fun x => .refl _, (List.append_nil _).symm⟩
  | cons z zs ih =>
    obtain ⟨p, o⟩ := z
    obtain ⟨n, rfl⟩ : ∃ m, n = m + 1 := ⟨n - 1, by simp at hn; omega⟩
    obtain ⟨hp, hkey, hnext, hscan⟩ := hscan
    obtain ⟨hnot, hnd⟩ := List.nodup_cons.mp hnd
    obtain ⟨hstop, hbuy, hparent⟩ := hpark o List.mem_cons_self
    rw [RBTree.firstPtr_cons, OrderBook.addTriggered, if_neg hp, hkey, ok_bind, h.order o,
      List.map_cons, List.takeWhile_cons]
    by_cases ht : triggered (L.order o) = true
    · obtain ⟨s₁, hs₁, h₁, ho₁, hstops⟩ := h.readd hs hstop hbuy hparent now
      have hkeep := L.addOrder_keeps o
      have hsame : (fun x => triggered ((L.addOrder o).1.order x)) =
          fun x => triggered (L.order x) := funext fun x => htriggered _ _ (hkeep x)
      have hparked := h.stops_congr h₁ (hstops b)
      obtain ⟨s₂, L₂, hs₂, h₂, hstops₂, hkeep₂, hqueue₂⟩ := ih h₁ ho₁ (by simpa using hn)
        (by rw [hstops b]; exact hscan) hnd fun x hx => by
          obtain ⟨hx₁, hx₂, hx₃⟩ := hpark x (List.mem_cons_of_mem _ hx)
          have hxo : x ≠ o := fun he => hnot (he ▸ hx)
          exact ⟨hparked ▸ hx₁, (hkeep x).isBuy.trans hx₂, (L.addOrder_parent hxo).trans hx₃⟩
      rw [hsame] at hs₂ hqueue₂
      rw [if_pos ht, if_pos ht]
      refine ⟨s₂, L₂, ?_, h₂, fun c => (hstops₂ c).trans (hstops c),
        fun x => (hkeep₂ x).trans (hkeep x), ?_⟩
      · rw [hs₁, ok_bind]
        dsimp only
        rw [hstops b, hkey, ok_bind, hnext, ok_bind, hs₂]
        rfl
      · rw [hqueue₂, L.addOrder_orderQueue, List.append_assoc]
        rfl
    · rw [if_neg ht, if_neg ht]
      exact ⟨s, L, rfl, h, fun _ => rfl, fun x => .refl _, (List.append_nil _).symm⟩

/-- **The loop that removes** takes the orders of a vector out of a tree. -/
theorem removeStops (h : Refines s L) (os : List ℕ) :
    ∃ s' stops', OrderBook.removeStops b s os = .ok s' ∧ (s'.stopOrders b).keys = .ok stops' ∧
      s'.orderQueue = s.orderQueue ∧
      ∀ x, x ∈ stops' ↔ x ∈ L.stops b ∧ ∀ o ∈ os, ¬ Equiv (L.stopLess b) o x := by
  -- the index is not changed along with the tree, so that the book does not refine a ledger
  have hloop : ∀ (s : OrderBook) (ks os : List ℕ), (s.stopOrders b).HasKeys ks →
      s.stopLess b = L.stopLess b → SortedKeys (L.stopLess b) ks →
      ∃ s' stops', OrderBook.removeStops b s os = .ok s' ∧ (s'.stopOrders b).HasKeys stops' ∧
        s'.orderQueue = s.orderQueue ∧
        ∀ x, x ∈ stops' ↔ x ∈ ks ∧ ∀ o ∈ os, ¬ Equiv (L.stopLess b) o x := by
    intro s ks os
    induction os generalizing s ks with
    | nil => exact fun hkeys _ _ => ⟨s, ks, rfl, hkeys, rfl, by simp⟩
    | cons o os ih =>
      intro hkeys hless hsorted
      have hweak := L.stopLess_strictWeak b
      obtain ⟨t, ht, hk⟩ := hkeys.remove hweak hsorted o
      have hset : (s.setStopOrders b t).stopOrders b = t ∧
          (s.setStopOrders b t).stopLess b = s.stopLess b ∧
          (s.setStopOrders b t).orderQueue = s.orderQueue := by
        cases b <;> exact ⟨rfl, rfl, rfl⟩
      obtain ⟨htree, hless', hqueue⟩ := hset
      obtain ⟨s', stops', hs', hk', hq', hmem⟩ := ih (s.setStopOrders b t) _
        (by rw [htree]; exact hk) (hless'.trans hless) (hsorted.eraseKey o)
      refine ⟨s', stops', ?_, hk', hq'.trans hqueue, fun x => ?_⟩
      · rw [OrderBook.removeStops, hless, ht, ok_bind]
        exact hs'
      · rw [hmem, mem_eraseKey hweak hsorted, List.forall_mem_cons, and_assoc]
  obtain ⟨s', stops', hs', hk', hq', hmem⟩ :=
    hloop s (L.stops b) os (h.stops b) h.stopLess (h.wf.stops_sorted b)
  exact ⟨s', stops', hs', hk'.keys, hq', hmem⟩

/-- **What is activated**: the orders that the iterator sees before one that is not triggered. -/
theorem activate (h : Refines s L) (hs : s.Orderly) (hL : L.Shelved)
    (htriggered : ∀ x y : OrderData, x.Keeps y → triggered x = triggered y) (now : ℤ)
    {zs : List (ℕ × ℕ)} {n : ℕ} (hn : zs.length < n)
    (hscan : (s.stopOrders b).Scans (next (s.stopOrders b)) zs)
    (hperm : (zs.map Prod.snd).Perm (L.stops b)) :
    ∃ s₁ s' stops' passed,
      passed = ((zs.map Prod.snd).takeWhile fun o => triggered (L.order o)) ∧
      OrderBook.addTriggered now b triggered next n s (RBTree.firstPtr zs) = .ok (s₁, passed) ∧
      OrderBook.removeStops b s₁ passed = .ok s' ∧ (s'.stopOrders b).keys = .ok stops' ∧
      s'.orderQueue = s.orderQueue ++ passed ∧ passed.Nodup ∧
      ∀ o, o ∈ stops' ↔ o ∈ L.stops b ∧ o ∉ passed := by
  have hsorted := h.wf.stops_sorted b
  have hnd : (zs.map Prod.snd).Nodup :=
    hperm.nodup_iff.mpr (hsorted.nodup (L.stopLess_strictWeak b))
  obtain ⟨s₁, L₁, hs₁, h₁, hstops, hkeep, hqueue⟩ := h.addTriggered hs htriggered now hn hscan hnd
    fun o ho => ⟨hperm.mem_iff.mp ho, hL b o (hperm.mem_iff.mp ho)⟩
  obtain ⟨passed, hpassed⟩ : ∃ passed, passed =
    (zs.map Prod.snd).takeWhile fun o => triggered (L.order o) := ⟨_, rfl⟩
  rw [← hpassed] at hs₁ hqueue
  obtain ⟨s', stops', hs', hk', hq', hmem⟩ := h₁.removeStops (b := b) passed
  have hsame : L₁.stops b = L.stops b := h.stops_congr h₁ (hstops b)
  refine ⟨s₁, s', stops', passed, hpassed, hs₁, hs', hk', ?_, ?_, fun o => ?_⟩
  · rw [hq', h₁.orderQueue, hqueue, h.orderQueue]
  · rw [hpassed]
    exact hnd.sublist (List.takeWhile_sublist _)
  · rw [hmem, hsame]
    refine and_congr_right fun ho => ⟨fun hne hpass => hne o hpass ?_, fun hnot x hx he => ?_⟩
    · exact ⟨(L₁.stopLess_strictWeak b).irrefl, (L₁.stopLess_strictWeak b).irrefl⟩
    · -- an equivalent order of the tree is the same one
      have hxmem : x ∈ L₁.stops b := by
        rw [hsame, ← hperm.mem_iff]
        rw [hpassed] at hx
        exact (List.takeWhile_sublist _).subset hx
      exact hnot ((h₁.wf.stops_sorted b).eq_of_equiv hxmem (hsame ▸ ho) he ▸ hx)

/-- **The triggered orders are activated exactly** if none of them comes after one that is not, in
the order in which the iterator sees them. -/
theorem activatesExactly_iff (triggered : OrderData → Bool) (next : RBTree ℕ → ℕ → Except Fault ℕ)
    (after : Except Fault OrderBook) (h : Refines s L) (hs : s.Orderly) (hL : L.Shelved)
    (htriggered : ∀ x y : OrderData, x.Keeps y → triggered x = triggered y) (now : ℤ)
    {zs : List (ℕ × ℕ)} {n : ℕ} (hn : zs.length < n)
    (hscan : (s.stopOrders b).Scans (next (s.stopOrders b)) zs)
    (hperm : (zs.map Prod.snd).Perm (L.stops b)) {before : ℕ → ℕ → Bool} (hweak : StrictWeak before)
    (hsorted : SortedKeys before (zs.map Prod.snd))
    (hafter : ∀ s₁ passed s', OrderBook.addTriggered now b triggered next n s (RBTree.firstPtr zs) =
      .ok (s₁, passed) → OrderBook.removeStops b s₁ passed = .ok s' → after = .ok s') :
    s.ActivatesExactly b (fun x => triggered x = true) after ↔
      ∀ o ∈ L.stops b, ∀ o' ∈ L.stops b, before o' o = true →
        triggered (s.order o).toOrderData = true → triggered (s.order o').toOrderData = true := by
  obtain ⟨s₁, s', stops', passed, hpassed, hs₁, hs', hkeys', hqueue, hnd, hmem'⟩ :=
    h.activate hs hL htriggered now hn hscan hperm
  have hmem : ∀ o, o ∈ passed ↔ o ∈ L.stops b ∧ triggered (s.order o).toOrderData = true ∧
      ∀ o' ∈ L.stops b, before o' o = true → triggered (s.order o').toOrderData = true := by
    intro o
    rw [hpassed, hsorted.mem_takeWhile hweak, hperm.mem_iff]
    simp only [hperm.mem_iff, h.order]
  constructor
  · rintro ⟨s'', stops, stops'', passed', hs'', hstops, -, hqueue', -, hall, -⟩ o ho o' ho' hlt ht
    obtain rfl : s' = s'' := Except.ok.inj ((hafter s₁ passed s' hs₁ hs').symm.trans hs'')
    obtain rfl : passed = passed' := List.append_cancel_left (hqueue.symm.trans hqueue')
    obtain rfl : L.stops b = stops := Except.ok.inj ((h.stops b).keys.symm.trans hstops)
    exact ((hmem o).mp ((hall o).mpr ⟨ho, ht⟩)).2.2 o' ho' hlt
  · intro hall
    refine ⟨s', L.stops b, stops', passed, hafter s₁ passed s' hs₁ hs', (h.stops b).keys, hkeys',
      hqueue, hnd, fun o => (hmem o).trans ⟨fun ho => ⟨ho.1, ho.2.1⟩, fun ho => ?_⟩, hmem'⟩
    exact ⟨ho.1, ho.2, fun o' ho' hlt => hall o ho.1 o' ho' hlt ho.2⟩

/-! ### The two sides -/

/-- The loop begins at a node that has been freed. -/
theorem addTriggered_freed (triggered : OrderData → Bool) (next : RBTree ℕ → ℕ → Except Fault ℕ)
    {now : ℤ} {p : ℕ} (hp : p ≠ RBTree.nil)
    (hfreed : (s.stopOrders b).mem p = none) (n : ℕ) :
    ∃ e, OrderBook.addTriggered now b triggered next n s p = .error e := by
  cases n with
  | zero => exact ⟨_, rfl⟩
  | succ n =>
    refine ⟨.badPointer, ?_⟩
    have hkey : (s.stopOrders b).key p = .error .badPointer := by
      simp [RBTree.key, RBTree.fetch, hfreed, deref, bind, Except.bind]
    rw [OrderBook.addTriggered, if_neg hp, hkey]
    rfl

/-- **`add_bid_stop_orders_below`**. -/
theorem addBidStopOrdersBelow_iff (h : Refines s L) (hs : s.Orderly) (hL : L.Shelved) (now : ℤ)
    (price : ℚ) :
    s.ActivatesExactly true (fun o => o.stopPrice ≤ price) (s.addBidStopOrdersBelow now price) ↔
      s.BidsReached price := by
  have hkeys : s.getBidStopOrders = .ok (L.stops true) := (h.stops true).keys
  by_cases hlast : s.bidStopOrders.first = RBTree.nil → s.bidStopOrders.last = RBTree.nil
  · obtain ⟨zs, hscan, hzs, hptr, hlen⟩ := (h.stops true).scans_last fun hnil =>
      hlast ((h.stops true).first_eq_nil.mpr hnil)
    have hptr : s.bidStopOrders.last = RBTree.firstPtr zs := hptr
    have hperm : (zs.map Prod.snd).Perm (L.stops true) := by
      rw [hzs]
      exact List.reverse_perm _
    have hswap : StrictWeak fun a b => L.stopLess true b a := by
      have hweak := L.stopLess_strictWeak true
      exact inferInstanceAs (IsStrictWeakOrder ℕ
        (Function.swap fun a b => L.stopLess true a b = true))
    have hsorted : SortedKeys (fun a b => L.stopLess true b a) (zs.map Prod.snd) := by
      rw [hzs]
      exact List.pairwise_reverse.mpr (h.wf.stops_sorted true)
    have hiff := h.activatesExactly_iff (b := true) (fun o => decide (o.stopPrice ≤ price))
      RBTree.predecessor (s.addBidStopOrdersBelow now price) hs hL
      (fun x y hxy => by rw [hxy.stopPrice]) now hlen hscan hperm hswap hsorted
      fun s₁ passed s' h₁ h' => by
        rw [OrderBook.addBidStopOrdersBelow, hptr]
        exact bind_eq_ok.mpr ⟨_, h₁, h'⟩
    simp only [decide_eq_true_eq] at hiff
    rw [hiff, OrderBook.BidsReached, hkeys, h.stopLess, and_iff_right hlast]
    simp
  · obtain ⟨hfirst, hne⟩ := Classical.not_imp.mp hlast
    have hfreed := ((hs.lastFreed true) hfirst).resolve_left hne
    refine iff_of_false ?_ fun hreach => hlast hreach.1
    rintro ⟨s', -, -, -, hrun, -⟩
    obtain ⟨r, hr, -⟩ := bind_eq_ok.mp hrun
    obtain ⟨e, he⟩ := addTriggered_freed (b := true) (fun o => decide (o.stopPrice ≤ price))
      RBTree.predecessor hne hfreed s.bidStopOrders.fuel
    exact absurd (he.symm.trans hr) (by simp)

/-- **`add_ask_stop_orders_above`**. -/
theorem addAskStopOrdersAbove_iff (h : Refines s L) (hs : s.Orderly) (hL : L.Shelved) (now : ℤ)
    (price : ℚ) :
    s.ActivatesExactly false (fun o => price ≤ o.stopPrice) (s.addAskStopOrdersAbove now price) ↔
      s.AsksReached price := by
  have hkeys : s.getAskStopOrders = .ok (L.stops false) := (h.stops false).keys
  obtain ⟨zs, hscan, hzs, hptr, hlen⟩ := (h.stops false).scans_first
  have hptr : s.askStopOrders.first = RBTree.firstPtr zs := hptr
  have hiff := h.activatesExactly_iff (b := false) (fun o => decide (price ≤ o.stopPrice))
    RBTree.successor (s.addAskStopOrdersAbove now price) hs hL
    (fun x y hxy => by rw [hxy.stopPrice]) now hlen hscan (hzs ▸ List.Perm.refl _)
    (L.stopLess_strictWeak false) (hzs ▸ h.wf.stops_sorted false)
    fun s₁ passed s' h₁ h' => by
      rw [OrderBook.addAskStopOrdersAbove, hptr]
      exact bind_eq_ok.mpr ⟨_, h₁, h'⟩
  simp only [decide_eq_true_eq] at hiff
  rw [hiff, OrderBook.AsksReached, hkeys, h.stopLess]
  simp

end Refines

/-! ### Reachable books -/

/-- **In every book** that the constructor builds over any repository and that any requests lead
to, and at every price, each of the two functions activates exactly the triggered orders if and
only if the iterator reaches them all. -/
theorem stopActivation_iff (instrument : String) (marketPrice : ℚ) (repository : List OrderData)
    (rs : List Request) : ∃ s₀ s answers,
      OrderBook.new instrument marketPrice repository = .ok s₀ ∧
      runAll OrderBook.step s₀ rs = .ok (s, answers) ∧ ∀ (now : ℤ) (price : ℚ),
        (s.ActivatesExactly true (fun o => o.stopPrice ≤ price)
          (s.addBidStopOrdersBelow now price) ↔ s.BidsReached price) ∧
        (s.ActivatesExactly false (fun o => price ≤ o.stopPrice)
          (s.addAskStopOrdersAbove now price) ↔ s.AsksReached price) := by
  have hempty := refines_empty instrument marketPrice
  obtain ⟨s₀, hnew, h₀⟩ := refines_new instrument marketPrice repository
  have hs₀ : s₀.Orderly := hempty.orderly_recover (OrderBook.orderly_empty _ _) hnew
  have hL₀ : ((Ledger.empty instrument marketPrice).recover repository).Shelved :=
    hempty.shelved_recover (fun b x hx => absurd hx (by simp [Ledger.empty])) repository
  have hall : Meets OrderBook.step (fun _ _ => True) s₀ rs :=
    meets_of_forall (P := fun _ => True) (fun _ _ => trivial) s₀
  obtain ⟨s, answers, hrun, L, h, hs, hL⟩ := runAll_invariant
    (I := fun s _ => ∃ L, Refines s L ∧ s.Orderly ∧ L.Shelved)
    (fun s r _ hI _ => by
      obtain ⟨L, h, hs, hL⟩ := hI
      obtain ⟨s', hs', h'⟩ := h.step r
      exact ⟨s', _, hs', _, h', h.orderly_step hs hs', hL.step h.wf r⟩)
    ⟨_, h₀, hs₀, hL₀⟩ hall
  exact ⟨s₀, s, answers, hnew, hrun, fun now price =>
    ⟨h.addBidStopOrdersBelow_iff hs hL now price, h.addAskStopOrdersAbove_iff hs hL now price⟩⟩

/-- **Every content of the stop trees is that of a reachable book**: orders that ask to be stopped,
of which no two on one side have the same limit price and time, are parked by the constructor. -/
theorem exists_stop_contents (instrument : String) (marketPrice : ℚ) {xs : List OrderData}
    (hstop : ∀ x ∈ xs, x.hasParam .stop = true)
    (hdistinct : xs.Pairwise fun x y => y.replaces x = false) :
    ∃ s, OrderBook.new instrument marketPrice xs = .ok s ∧ ∀ b, ∃ stops,
      (s.stopOrders b).keys = .ok stops ∧
      (stops.map fun o => (s.order o).toOrderData).Perm (xs.filter fun x => x.isBuy = b) := by
  obtain ⟨s, hs, h⟩ := refines_new instrument marketPrice xs
  have hL := Ledger.recovered_new instrument marketPrice xs
  refine ⟨s, hs, fun b => ⟨_, (h.stops b).keys, ?_⟩⟩
  have hself : ∀ x ∈ xs, x.replaces x = true := fun x hx =>
    OrderData.replaces_iff.mpr ⟨hstop x hx, rfl, rfl, rfl⟩
  have hnd : xs.Nodup := hdistinct.imp_of_mem fun {x y} hx _ hxy he => by
    rw [← he, hself x hx] at hxy
    exact absurd hxy (by simp)
  -- each order has its record
  have hmem : ∀ o, o ∈ ((Ledger.empty instrument marketPrice).recover xs).stops b ↔
      ∃ x, xs[o]? = some x ∧ x.isBuy = b := by
    intro o
    rw [hL.stops]
    refine exists_congr fun x => and_congr_left fun _ => ⟨fun hx => hx.entry, fun hx => ?_⟩
    refine ⟨hx, hstop x (List.mem_of_getElem? hx), fun o' ho' y hy => ?_⟩
    obtain ⟨hlt, rfl⟩ := List.getElem?_eq_some_iff.mp hx
    obtain ⟨hlt', rfl⟩ := List.getElem?_eq_some_iff.mp hy
    exact List.pairwise_iff_getElem.mp hdistinct o o' hlt hlt' ho'
  have hinj : ∀ o ∈ ((Ledger.empty instrument marketPrice).recover xs).stops b,
      ∀ o' ∈ ((Ledger.empty instrument marketPrice).recover xs).stops b,
      (s.order o).toOrderData = (s.order o').toOrderData → o = o' := by
    intro o ho o' ho' he
    obtain ⟨x, hx, -⟩ := (hmem o).mp ho
    obtain ⟨y, hy, -⟩ := (hmem o').mp ho'
    rw [h.order, h.order, hL.order o x hx, hL.order o' y hy] at he
    exact (List.getElem?_inj (List.getElem?_eq_some_iff.mp hx).1 hnd).mp (by rw [hx, hy, he])
  have hnd' := (h.wf.stops_sorted b).nodup
    (((Ledger.empty instrument marketPrice).recover xs).stopLess_strictWeak b)
  refine (List.perm_ext_iff_of_nodup (hnd'.map_on hinj) (hnd.filter _)).mpr fun x => ?_
  rw [List.mem_map, List.mem_filter, decide_eq_true_eq]
  constructor
  · rintro ⟨o, ho, rfl⟩
    obtain ⟨x, hx, hb⟩ := (hmem o).mp ho
    rw [h.order, hL.order o x hx]
    exact ⟨List.mem_of_getElem? hx, hb⟩
  · rintro ⟨hx, hb⟩
    obtain ⟨o, ho⟩ := List.mem_iff_getElem?.mp hx
    exact ⟨o, (hmem o).mpr ⟨x, ho, hb⟩, (h.order o).trans (hL.order o x ho)⟩

/-- The last order of the tree can leave it when an order that is not in it is cancelled; then the
loop over the bids begins at a freed node. -/
example : (runAll OrderBook.step (.empty "X" 100)
      [.add 0 { OrderArgs.limit "a" .buy 5 10 .stop with stopPrice := 5 },
        .add 0 { OrderArgs.limit "b" .buy 5 10 .stop with stopPrice := 200 },
        .cancel "b"]).toOption.map (fun r =>
      (r.1.getBidStopOrders.toOption, (r.1.addBidStopOrdersBelow 0 10).toOption.isSome)) =
    some (some [], false) := by
  decide +kernel

/-- Two parked bids, of which the second has the higher limit price and the higher stop price. At
the stop price of the first, the loop ends at the second. -/
theorem triggered_stop_missed : ∃ s₀ s answers s',
    OrderBook.new "X" 100 [] = .ok s₀ ∧ runAll OrderBook.step s₀
      [.add 0 { OrderArgs.limit "a" .buy 5 10 .stop with stopPrice := 5 },
        .add 0 { OrderArgs.limit "b" .buy 5 20 .stop with stopPrice := 50 }] = .ok (s, answers) ∧
    s.getBidStopOrders = .ok [0, 1] ∧ (s.order 0).stopPrice = 5 ∧
    s.addBidStopOrdersBelow 0 10 = .ok s' ∧ s'.getBidStopOrders = .ok [0, 1] ∧
    ¬ s.ActivatesExactly true (fun o => o.stopPrice ≤ 10) (s.addBidStopOrdersBelow 0 10) := by
  obtain ⟨⟨s, answers⟩, hrun, hs⟩ := exists_ok_of_map (f := fun r =>
      (r.1.getBidStopOrders.toOption, (r.1.order 0).stopPrice))
    (b := (some [0, 1], 5)) (show (runAll OrderBook.step (.empty "X" 100)
      [.add 0 { OrderArgs.limit "a" .buy 5 10 .stop with stopPrice := 5 },
        .add 0 { OrderArgs.limit "b" .buy 5 20 .stop with stopPrice := 50 }]).toOption.map _ = _ by
      decide +kernel)
  have hafter := eq_of_ok_of_map
    (f := fun r => (r.1.addBidStopOrdersBelow 0 10).toOption.map fun s' =>
      s'.getBidStopOrders.toOption) (b := some (some [0, 1])) hrun (by decide +kernel)
  simp only [Prod.mk.injEq] at hs
  obtain ⟨hkeys, hstop⟩ := hs
  obtain ⟨_, hkeys, rfl⟩ := exists_ok_of_map (f := id) (Option.map_id_apply.trans hkeys)
  obtain ⟨s', hs', hkeys'⟩ := exists_ok_of_map hafter
  obtain ⟨_, hkeys', rfl⟩ := exists_ok_of_map (f := id) (Option.map_id_apply.trans hkeys')
  refine ⟨_, s, answers, s', rfl, hrun, hkeys, hstop, hs', hkeys', ?_⟩
  rintro ⟨s'', stops, stops', passed, hs'', hstops, hstops', -, -, hpassed, hleft⟩
  obtain rfl : s' = s'' := Except.ok.inj (hs'.symm.trans hs'')
  obtain rfl : [0, 1] = stops := Except.ok.inj (hkeys.symm.trans hstops)
  obtain rfl : [0, 1] = stops' := Except.ok.inj (hkeys'.symm.trans hstops')
  have hle : (s.order 0).stopPrice ≤ 10 := by
    rw [hstop]
    decide
  have hpass : 0 ∈ passed := (hpassed 0).mpr ⟨by simp, hle⟩
  exact ((hleft 0).mp (by simp)).2 hpass

end LimitOrderBook
