import LimitOrderBook.Repository.OrderRepository
import LimitOrderBook.Repository.TradeRepository
import Mathlib.Data.List.TakeWhile

/-!
# What the repositories give back

A record of an order has every field but the stop price, so an order is read back as it was
saved exactly if its stop price is the default (`LimitOrderBook.recordRoundTrip_iff`).

The key of a trade has its time of the day only, in nanoseconds, and the time that is read back
is this number. So trades with the same users are overwritten when they happen in the same
second of some days, and hardly any time comes back as it was
(`LimitOrderBook.tradesKept_iff`).
-/

namespace LimitOrderBook

/-! ### Orders -/

/-- **An order is read back as it was saved**, by its id and among all. -/
structure RecordRoundTrip (r : OrderStore) (o : OrderData) : Prop where
  get : (r.save o).get o.id = some o
  getAll : o ∈ (r.save o).getAll

/-- **The round trip** succeeds for the orders whose stop price is zero. -/
theorem recordRoundTrip_iff (r : OrderStore) (o : OrderData) :
    RecordRoundTrip r o ↔ o.stopPrice = 0 := by
  have harchived : o.archived = o ↔ o.stopPrice = 0 := by
    constructor
    · intro h
      rw [← h]
      rfl
    · intro h
      rw [OrderData.archived, ← h]
  constructor
  · intro h
    have hget := h.get
    rw [OrderStore.get_save_self, Option.some.injEq] at hget
    exact harchived.mp hget
  · intro h
    have ho := harchived.mpr h
    refine ⟨?_, OrderStore.mem_save.mpr (Or.inl ho.symm)⟩
    rw [OrderStore.get_save_self, ho]

/-- A parked order comes back with stop price 0. -/
theorem stopPrice_lost : ¬ RecordRoundTrip .empty
    { OrderArgs.limit "s" .buy 5 10 .stop with stopPrice := 5 }.toData := by
  intro h
  have hget := h.get
  rw [OrderStore.get_save_self, Option.some.injEq] at hget
  exact absurd (congrArg OrderData.stopPrice hget) (by decide)

/-! ### Trades -/

/-- **All trades are kept**: there are as many as were saved, and what is read with the key of
one that was saved is one with this key. -/
structure TradesKept (trades : List Trade) : Prop where
  count : (TradeStore.empty.saveAll trades).getAllTrades.length = trades.length
  get : ∀ trade ∈ trades, ∃ x ∈ trades,
    (TradeStore.empty.saveAll trades).getTradeByPrimaryKey trade.buyerId trade.sellerId
      trade.timestamp = .ok x ∧
    x.buyerId = trade.buyerId ∧ x.sellerId = trade.sellerId ∧ x.timestamp = trade.timestamp

/-- None of the ids of a trade has a null character. -/
def Trade.NulFree (trade : Trade) : Prop :=
  ∀ s ∈ [trade.buyerId, trade.sellerId, trade.buyerOrderId, trade.sellerOrderId,
    trade.instrument], ∀ c ∈ s.toList, c.toNat ≠ 0

theorem cStr_eq_self {s : String} : cStr s = s ↔ ∀ c ∈ s.toList, c.toNat ≠ 0 := by
  rw [cStr, ← String.toList_inj, String.toList_ofList, List.takeWhile_eq_self_iff]
  simp

/-- A trade is read back as it was saved. -/
theorem Trade.convert_eq_self (trade : Trade) : trade.toRow.convertToTrade = trade ↔
    trade.NulFree ∧ cassTimeFromEpoch trade.timestamp = trade.timestamp := by
  simp only [Trade.NulFree, List.forall_mem_cons, ← cStr_eq_self]
  constructor
  · intro h
    exact ⟨⟨congrArg Trade.buyerId h, congrArg Trade.sellerId h, congrArg Trade.buyerOrderId h,
      congrArg Trade.sellerOrderId h, congrArg Trade.instrument h, by simp⟩,
      congrArg Trade.timestamp h⟩
  · rintro ⟨⟨h₁, h₂, h₃, h₄, h₅, -⟩, h₆⟩
    simp only [Trade.toRow, TradeRow.convertToTrade, h₁, h₂, h₃, h₄, h₅, h₆]

/-- The keys of trades without null characters are their users and times of the day. -/
theorem nodup_keys_iff {trades : List Trade} (h : ∀ trade ∈ trades, trade.NulFree) :
    ((trades.map Trade.toRow).map TradeRow.key).Nodup ↔
      (trades.map fun t => (t.buyerId, t.sellerId, t.timestamp % 86400)).Nodup := by
  rw [List.map_map]
  refine List.pairwise_map.trans (Iff.trans ?_ List.pairwise_map.symm)
  refine List.Pairwise.iff_of_mem fun {x y} hx hy => not_congr ?_
  have hkey : ∀ t ∈ trades, (TradeRow.key ∘ Trade.toRow) t =
      (t.buyerId, t.sellerId, t.timestamp % 86400 * 1000000000) := fun t ht => by
    have hb := cStr_eq_self.mpr (h t ht t.buyerId (by simp))
    have hs := cStr_eq_self.mpr (h t ht t.sellerId (by simp))
    simp only [Function.comp_apply, TradeRow.key, Trade.toRow, hb, hs, cassTimeFromEpoch]
  rw [hkey x hx, hkey y hy]
  simp only [Prod.mk.injEq]
  refine and_congr_right fun _ => and_congr_right fun _ => ?_
  omega

/-- **A sequence of saved trades is kept** exactly if their times are those of the day in
nanoseconds, no id has a null character, and no two trades of the same users happened in the
same second of the day. -/
theorem tradesKept_iff (trades : List Trade) : TradesKept trades ↔
    (∀ t ∈ trades, t.NulFree ∧ t.timestamp % 86400 * 1000000000 = t.timestamp) ∧
      (trades.map fun t => (t.buyerId, t.sellerId, t.timestamp % 86400)).Nodup := by
  have hcount : (TradeStore.empty.saveAll trades).getAllTrades.length = trades.length ↔
      ((trades.map Trade.toRow).map TradeRow.key).Nodup := by
    rw [← length_putRows_eq_iff, TradeStore.getAllTrades, List.length_map,
      TradeStore.rows_saveAll, List.length_map]
    rfl
  constructor
  · rintro ⟨hlen, hget⟩
    have hnd := hcount.mp hlen
    have hrows := TradeStore.rows_saveAll_empty hnd
    have hself : ∀ t ∈ trades, t.toRow.convertToTrade = t := fun t ht => by
      obtain ⟨x, hx, hread, hb, hs, htime⟩ := hget t ht
      rw [TradeStore.getTradeByPrimaryKey_eq (hrows ▸ List.mem_map_of_mem ht),
        Except.ok.injEq] at hread
      -- a saved trade with this key is this one
      rw [List.map_map] at hnd
      have hkey : (TradeRow.key ∘ Trade.toRow) x = (TradeRow.key ∘ Trade.toRow) t := by
        simp only [Function.comp_apply, TradeRow.key, Trade.toRow, hb, hs, htime]
      rw [hread, List.inj_on_of_nodup_map hnd hx ht hkey]
    have hall := fun t ht => (Trade.convert_eq_self t).mp (hself t ht)
    exact ⟨hall, (nodup_keys_iff fun t ht => (hall t ht).1).mp hnd⟩
  · rintro ⟨hall, hnd⟩
    have hnd' := (nodup_keys_iff fun t ht => (hall t ht).1).mpr hnd
    refine ⟨hcount.mpr hnd', fun t ht => ⟨t, ht, ?_, rfl, rfl, rfl⟩⟩
    have hrows := TradeStore.rows_saveAll_empty hnd'
    rw [TradeStore.getTradeByPrimaryKey_eq (hrows ▸ List.mem_map_of_mem ht),
      t.convert_eq_self.mpr (hall t ht)]

/-- Two trades in one second: one row is left, and its time is that of the day in nanoseconds. -/
theorem trades_overwritten :
    (TradeStore.empty.saveAll [⟨"b", "s", "1", "2", "X", 5, 10, 1700000000⟩,
      ⟨"b", "s", "3", "4", "X", 7, 11, 1700000000⟩]).getAllTrades =
        [⟨"b", "s", "3", "4", "X", 7, 11, 80000000000000⟩] ∧
    ¬ TradesKept [⟨"b", "s", "1", "2", "X", 5, 10, 1700000000⟩,
      ⟨"b", "s", "3", "4", "X", 7, 11, 1700000000⟩] := by
  have hall : (TradeStore.empty.saveAll [⟨"b", "s", "1", "2", "X", 5, 10, 1700000000⟩,
      ⟨"b", "s", "3", "4", "X", 7, 11, 1700000000⟩]).getAllTrades =
        [⟨"b", "s", "3", "4", "X", 7, 11, 80000000000000⟩] := by decide +kernel
  refine ⟨hall, fun h => ?_⟩
  have hlen := h.count
  rw [hall] at hlen
  exact absurd hlen (by decide)

end LimitOrderBook
