import LimitOrderBook.Ledger.InPlace
import LimitOrderBook.Ledger.Runs

/-!
# What the constructor builds

A book that is constructed over a list of records has one order for each of them, numbered in
the order of the records. Those that ask to be stopped are parked, the others rest, and those
that share a level are in the order of the records; the index and the registry of dated
orders are empty (`LimitOrderBook.Ledger.Recovered`).

The trees of stop orders hold one order for a price and a time, so a record can take the
place of an earlier one. Those that are left are `LimitOrderBook.standing`.
-/

namespace LimitOrderBook

/-- The order `y` takes the place of the parked order `x` when it is parked. -/
def OrderData.replaces (y x : OrderData) : Bool :=
  y.hasParam .stop && y.isBuy = x.isBuy && y.price = x.price && y.timestamp = x.timestamp

theorem OrderData.replaces_iff {x y : OrderData} : y.replaces x = true ↔
    y.hasParam .stop = true ∧ y.isBuy = x.isBuy ∧ y.price = x.price ∧ y.timestamp = x.timestamp := by
  simp [replaces, and_assoc]

/-- The records whose orders are live in a book that is constructed over them. -/
def standing : List OrderData → List OrderData
  | [] => []
  | x :: rest =>
    if x.hasParam .stop && rest.any (OrderData.replaces · x) then standing rest
    else x :: standing rest

theorem mem_standing {rs : List OrderData} {x : OrderData} : x ∈ standing rs ↔
    ∃ o : ℕ, rs[o]? = some x ∧
      (x.hasParam .stop = true → ∀ o' > o, ∀ y : OrderData, rs[o']? = some y →
        y.replaces x = false) := by
  induction rs with
  | nil => simp [standing]
  | cons z rest ih =>
    have htail : x ∈ standing rest ↔ ∃ o : ℕ, (z :: rest)[o + 1]? = some x ∧ (x.hasParam .stop = true →
        ∀ o' > o + 1, ∀ y : OrderData, (z :: rest)[o']? = some y → y.replaces x = false) := by
      rw [ih]
      refine exists_congr fun o => and_congr_right fun _ => imp_congr_right fun _ => ?_
      constructor
      · rintro h (_ | o') ho' y hy
        · omega
        · exact h o' (by omega) y hy
      · intro h o' ho' y hy
        exact h (o' + 1) (by omega) y hy
    have hhead : (x.hasParam .stop = true → ∀ o' > 0, ∀ y : OrderData, (z :: rest)[o']? = some y →
        y.replaces x = false) ↔ ¬ (x.hasParam .stop && rest.any (OrderData.replaces · x)) = true := by
      rw [Bool.and_eq_true, not_and, List.any_eq_true]
      refine imp_congr_right fun _ => ?_
      constructor
      · rintro h ⟨y, hy, hrep⟩
        obtain ⟨o', ho'⟩ := List.mem_iff_getElem?.mp hy
        rw [h (o' + 1) (by omega) y ho'] at hrep
        exact absurd hrep (by simp)
      · rintro h (_ | o') ho' y hy
        · omega
        · exact Bool.eq_false_iff.mpr fun hrep => h ⟨y, List.mem_iff_getElem?.mpr ⟨o', hy⟩, hrep⟩
    have hsplit : ∀ P : ℕ → Prop, (∃ o, P o) ↔ P 0 ∨ ∃ o, P (o + 1) := fun P =>
      ⟨fun ⟨o, ho⟩ => by
        cases o with
        | zero => exact Or.inl ho
        | succ o => exact Or.inr ⟨o, ho⟩, fun h => h.elim (fun h => ⟨0, h⟩) fun ⟨o, ho⟩ => ⟨_, ho⟩⟩
    rw [hsplit, ← htail, standing, List.getElem?_cons_zero, Option.some.injEq]
    split
    · next hz =>
      refine ⟨Or.inr, ?_⟩
      rintro (⟨rfl, hx⟩ | hx)
      · exact absurd hz (hhead.mp hx)
      · exact hx
    · next hz =>
      rw [List.mem_cons]
      refine or_congr_left ⟨?_, fun h => h.1.symm⟩
      rintro rfl
      exact ⟨rfl, hhead.mpr hz⟩

/-- The entries of a longer list. -/
theorem getElem?_concat_eq_some {α : Type} {rs : List α} {x y : α} {o : ℕ} :
    (rs ++ [x])[o]? = some y ↔ rs[o]? = some y ∨ o = rs.length ∧ y = x := by
  rcases lt_trichotomy o rs.length with ho | rfl | ho
  · rw [List.getElem?_append_left ho]
    simp [ho.ne]
  · simp [eq_comm]
  · rw [List.getElem?_eq_none (by simp; omega), List.getElem?_eq_none ho.le]
    simp [ho.ne']

/-- The record `x`, at the place `o`, is that of a stop order, and no later one takes its
place. -/
structure StaysParked (rs : List OrderData) (o : ℕ) (x : OrderData) : Prop where
  entry : rs[o]? = some x
  stop : x.hasParam .stop = true
  last : ∀ o' > o, ∀ y, rs[o']? = some y → y.replaces x = false

/-- One more record takes the place of some, and may be that of a stop order itself. -/
theorem staysParked_concat {rs : List OrderData} {x y : OrderData} {o : ℕ} :
    StaysParked (rs ++ [x]) o y ↔ (o = rs.length ∧ y = x ∧ x.hasParam .stop = true) ∨
      StaysParked rs o y ∧ x.replaces y = false := by
  constructor
  · rintro ⟨hy, hstop, hlast⟩
    rcases getElem?_concat_eq_some.mp hy with hy | ⟨rfl, rfl⟩
    · have hlt := (List.getElem?_eq_some_iff.mp hy).1
      refine Or.inr ⟨⟨hy, hstop, fun o' ho' z hz => ?_⟩, ?_⟩
      · exact hlast o' ho' z (getElem?_concat_eq_some.mpr (Or.inl hz))
      · exact hlast rs.length hlt x (getElem?_concat_eq_some.mpr (Or.inr ⟨rfl, rfl⟩))
    · exact Or.inl ⟨rfl, rfl, hstop⟩
  · rintro (⟨rfl, rfl, hstop⟩ | ⟨⟨hy, hstop, hlast⟩, hx⟩)
    · refine ⟨getElem?_concat_eq_some.mpr (Or.inr ⟨rfl, rfl⟩), hstop, fun o' ho' z hz => ?_⟩
      rw [List.getElem?_eq_none (by simp; omega)] at hz
      exact absurd hz (by simp)
    · refine ⟨getElem?_concat_eq_some.mpr (Or.inl hy), hstop, fun o' ho' z hz => ?_⟩
      rcases getElem?_concat_eq_some.mp hz with hz | ⟨-, rfl⟩
      · exact hlast o' ho' z hz
      · exact hx

namespace Ledger

variable {L : Ledger} {rs : List OrderData} {x : OrderData}

/-- **The ledger that the constructor builds** from the records `rs`. -/
structure Recovered (L : Ledger) (rs : List OrderData) : Prop where
  inPlace : L.InPlace
  nextOrder : L.nextOrder = rs.length
  order : ∀ o x, rs[o]? = some x → L.order o = x
  orders : L.orders = ∅
  dates : L.dates = []
  queue : ∀ o, (∃ l, o ∈ L.queue l) ↔ ∃ x, rs[o]? = some x ∧ x.hasParam .stop = false
  ascending : ∀ l, (L.queue l).Pairwise (· < ·)
  stops : ∀ b o, o ∈ L.stops b ↔ ∃ x, StaysParked rs o x ∧ x.isBuy = b

theorem recovered_empty (instrument : String) (marketPrice : ℚ) :
    (empty instrument marketPrice).Recovered [] where
  inPlace := inPlace_empty instrument marketPrice
  nextOrder := rfl
  order := by simp
  orders := rfl
  dates := rfl
  queue := by simp [empty]
  ascending := by simp [empty]
  stops := by
    intro b o
    refine ⟨fun ho => absurd ho (by simp [empty]), ?_⟩
    rintro ⟨x, hx, -⟩
    exact absurd hx.entry (by simp)

namespace Recovered

variable (h : L.Recovered rs)

include h

theorem order_alloc {o : ℕ} {y : OrderData} (hy : (rs ++ [x])[o]? = some y) :
    (L.allocOrder x).order o = y := by
  rw [allocOrder_order]
  rcases getElem?_concat_eq_some.mp hy with hy | ⟨rfl, rfl⟩
  · obtain ⟨ho, -⟩ := List.getElem?_eq_some_iff.mp hy
    rw [Function.update_of_ne (by rw [h.nextOrder]; omega)]
    exact h.order o y hy
  · rw [← h.nextOrder, Function.update_self]

theorem nextOrder_alloc : (L.allocOrder x).nextOrder = (rs ++ [x]).length := by
  rw [allocOrder_nextOrder, h.nextOrder, List.length_append]
  rfl

/-- The next record is that of a stop order. -/
theorem addStopOrder (hstop : x.hasParam .stop = true) :
    ((L.allocOrder x).addStopOrder L.nextOrder x.isBuy).Recovered (rs ++ [x]) := by
  have halloc := h.inPlace.allocOrder x
  have hnew : (L.allocOrder x).order L.nextOrder = x := Function.update_self _ _ _
  have hreplace : ∀ o y, StaysParked rs o y → y.isBuy = x.isBuy →
      (Equiv ((L.allocOrder x).stopLess x.isBuy) L.nextOrder o ↔ x.replaces y = true) := by
    intro o y hy hside
    rw [stopLess_equiv, hnew, h.order_alloc (getElem?_concat_eq_some.mpr (Or.inl hy.entry)),
      OrderData.replaces_iff]
    exact ⟨fun ⟨h₁, h₂⟩ => ⟨hstop, hside.symm, h₁, h₂⟩, fun ⟨_, _, h₁, h₂⟩ => ⟨h₁, h₂⟩⟩
  refine
    { inPlace := { halloc with wf := halloc.wf.addStopOrder (Nat.lt_succ_self L.nextOrder) }
      nextOrder := h.nextOrder_alloc
      order := fun o y hy => h.order_alloc hy
      orders := h.orders
      dates := h.dates
      queue := fun o => ?_
      ascending := h.ascending
      stops := fun b o => ?_ }
  · refine (h.queue o).trans (exists_congr fun y => ?_)
    rw [getElem?_concat_eq_some]
    constructor
    · rintro ⟨hy, hs⟩
      exact ⟨Or.inl hy, hs⟩
    · rintro ⟨hy | ⟨-, rfl⟩, hs⟩
      · exact ⟨hy, hs⟩
      · exact absurd hs (by simp [hstop])
  · -- the new order stays, an old one stays unless the new one takes its place
    simp only [staysParked_concat, addStopOrder_stops]
    by_cases hb : b = x.isBuy
    · subst hb
      rw [Function.update_self, mem_insertKey ((L.allocOrder x).stopLess_strictWeak _)
        (halloc.wf.stops_sorted _), allocOrder_stops, h.stops]
      constructor
      · rintro (rfl | ⟨⟨y, hy, hside⟩, hne⟩)
        · exact ⟨x, Or.inl ⟨h.nextOrder, rfl, hstop⟩, rfl⟩
        · rw [hreplace o y hy hside, Bool.not_eq_true] at hne
          exact ⟨y, Or.inr ⟨hy, hne⟩, hside⟩
      · rintro ⟨y, ⟨ho, -, -⟩ | ⟨hy, hne⟩, hside⟩
        · exact Or.inl (ho.trans h.nextOrder.symm)
        · refine Or.inr ⟨⟨y, hy, hside⟩, ?_⟩
          rw [hreplace o y hy hside, Bool.not_eq_true]
          exact hne
    · rw [Function.update_of_ne hb, allocOrder_stops, h.stops]
      constructor
      · rintro ⟨y, hy, hside⟩
        refine ⟨y, Or.inr ⟨hy, Bool.eq_false_iff.mpr fun hrep => hb ?_⟩, hside⟩
        exact hside.symm.trans (OrderData.replaces_iff.mp hrep).2.1.symm
      · rintro ⟨y, ⟨-, rfl, -⟩ | ⟨hy, -⟩, hside⟩
        · exact absurd hside.symm hb
        · exact ⟨y, hy, hside⟩

/-- The next record is that of an order that rests. -/
theorem addLimitOrder (hstop : x.hasParam .stop = false) :
    (((L.allocOrder x).allocLimit x.price).addLimitOrder L.nextOrder (L.allocOrder x).nextLimit
      x.isBuy).Recovered (rs ++ [x]) := by
  have halloc := h.inPlace.allocOrder x
  have hnew : (L.allocOrder x).order L.nextOrder = x := Function.update_self _ _ _
  have hfree : ∀ l, L.nextOrder ∉ (L.allocOrder x).queue l := fun l hl =>
    lt_irrefl _ (h.inPlace.wf.queue_lt l _ hl)
  obtain ⟨l, hl, hprice⟩ := halloc.wf.addLimitOrder_new L.nextOrder x.price x.isBuy
  have hwf := halloc.wf.addLimitOrder_fresh (Nat.lt_succ_self L.nextOrder) hfree x.price x.isBuy
  obtain ⟨-, -, -, -, -, -, hdates, horders⟩ :=
    addLimitOrder_frame ((L.allocOrder x).allocLimit x.price) L.nextOrder L.nextLimit x.isBuy
  obtain ⟨L', hL'⟩ : ∃ L', L' = ((L.allocOrder x).allocLimit x.price).addLimitOrder L.nextOrder
    (L.allocOrder x).nextLimit x.isBuy := ⟨_, rfl⟩
  have hlim : L.nextLimit = (L.allocOrder x).nextLimit := rfl
  rw [hlim] at hdates horders
  rw [← hL'] at hl hprice hwf hdates horders ⊢
  have hplace : Placed (L.allocOrder x) L' L.nextOrder l ((L.allocOrder x).order L.nextOrder).isBuy :=
    by rwa [hnew]
  refine
    { inPlace := halloc.placed hplace hwf (by rw [hprice, hnew])
      nextOrder := hl.nextOrder.trans h.nextOrder_alloc
      order := fun o y hy => (congrFun hl.order o).trans (h.order_alloc hy)
      orders := horders.trans h.orders
      dates := hdates.trans h.dates
      queue := fun o => ?_
      ascending := fun k => ?_
      stops := fun b o => ?_ }
  · have hmem : (∃ k, o ∈ L'.queue k) ↔ o = L.nextOrder ∨ ∃ k, o ∈ L.queue k := by
      simp only [hl.mem_queue, allocOrder_queue, exists_or, exists_and_left, exists_eq, and_true]
    rw [hmem, h.queue, h.nextOrder]
    constructor
    · rintro (rfl | ⟨y, hy, hs⟩)
      · exact ⟨x, getElem?_concat_eq_some.mpr (Or.inr ⟨rfl, rfl⟩), hstop⟩
      · exact ⟨y, getElem?_concat_eq_some.mpr (Or.inl hy), hs⟩
    · rintro ⟨y, hy, hs⟩
      rcases getElem?_concat_eq_some.mp hy with hy | ⟨ho, -⟩
      · exact Or.inr ⟨y, hy, hs⟩
      · exact Or.inl ho
  · rw [hl.queue]
    by_cases hk : k = l
    · subst hk
      rw [Function.update_self, allocOrder_queue]
      refine List.pairwise_append.mpr ⟨h.ascending k, List.pairwise_singleton _ _, ?_⟩
      intro y hy z hz
      rw [List.mem_singleton.mp hz]
      exact h.inPlace.wf.queue_lt k y hy
    · rw [Function.update_of_ne hk]
      exact h.ascending k
  · rw [hl.stops, allocOrder_stops, h.stops]
    simp only [staysParked_concat, OrderData.replaces, hstop]
    simp

/-- **The next record.** -/
theorem recoverOrder (x : OrderData) :
    ((L.allocOrder x).recoverOrder L.nextOrder).Recovered (rs ++ [x]) := by
  have hnew : (L.allocOrder x).order L.nextOrder = x := Function.update_self _ _ _
  rw [Ledger.recoverOrder, hnew]
  split
  · next hstop => exact h.addStopOrder hstop
  · next hstop => exact h.addLimitOrder (by simpa using hstop)

/-- **All the records**, one after the other. -/
theorem recover (rest : List OrderData) : (L.recover rest).Recovered (rs ++ rest) := by
  induction rest generalizing L rs with
  | nil => simpa [Ledger.recover] using h
  | cons x rest ih =>
    rw [Ledger.recover, List.append_cons]
    exact ih (h.recoverOrder x)

/-- The orders that the book holds are those of the records that are left. -/
theorem exists_live_iff : (∃ o ∈ L.live, L.order o = x) ↔ x ∈ standing rs := by
  rw [mem_standing]
  constructor
  · rintro ⟨o, ho, rfl⟩
    rcases h.inPlace.mem_live_iff.mp ho with ho | ⟨b, ho⟩
    · obtain ⟨y, hy, hs⟩ := (h.queue o).mp ho
      rw [h.order o y hy]
      exact ⟨o, hy, fun hs' => absurd hs' (by simp [hs])⟩
    · obtain ⟨y, hy, -⟩ := (h.stops b o).mp ho
      rw [h.order o y hy.entry]
      exact ⟨o, hy.entry, fun _ => hy.last⟩
  · rintro ⟨o, ho, hall⟩
    refine ⟨o, h.inPlace.mem_live_iff.mpr ?_, h.order o x ho⟩
    rcases hs : x.hasParam .stop with _ | _
    · exact Or.inl ((h.queue o).mpr ⟨x, ho, hs⟩)
    · exact Or.inr ⟨_, (h.stops _ o).mpr ⟨x, ⟨ho, hs, hall hs⟩, rfl⟩⟩

end Recovered

/-- The ledger of a book over a repository. -/
theorem recovered_new (instrument : String) (marketPrice : ℚ) (repository : List OrderData) :
    ((empty instrument marketPrice).recover repository).Recovered repository := by
  simpa using (recovered_empty instrument marketPrice).recover repository

end Ledger

end LimitOrderBook
