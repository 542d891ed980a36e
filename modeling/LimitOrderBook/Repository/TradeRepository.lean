import LimitOrderBook.DataStructures
import LimitOrderBook.Lib.KeyedRows

/-!
# The class `TradeRepository`

The store of `repository/trade_repository.cpp`: the table `orderbook.trades` with its primary
key, what `save` binds to the columns of a row and what `convert_to_trade` reads back.

Of the database driver it is assumed that an insertion overwrites the row with the same
primary key, that every query succeeds, and that `cass_time_from_epoch` is the time of the
day in nanoseconds. Strings cross its interface as C strings, which end at the first null
character.
-/

namespace LimitOrderBook

/-- A row of the table `orderbook.trades`. -/
structure TradeRow where
  buyerId : String
  sellerId : String
  /-- The time of the day, in nanoseconds. -/
  timestamp : ℤ
  buyerOrderId : String
  sellerOrderId : String
  instrument : String
  volume : ℚ
  price : ℚ
  deriving DecidableEq

/-- `PRIMARY KEY((buyer_id, seller_id, timestamp))`. -/
def TradeRow.key (r : TradeRow) : String × String × ℤ := (r.buyerId, r.sellerId, r.timestamp)

/-- `cass_time_from_epoch`. -/
def cassTimeFromEpoch (epochSecs : ℤ) : ℤ := epochSecs % 86400 * 1000000000

/-- A string that is passed as `c_str()`. -/
def cStr (s : String) : String := String.ofList (s.toList.takeWhile fun c => c.toNat ≠ 0)

/-- The row that `save` binds. -/
def Trade.toRow (trade : Trade) : TradeRow where
  buyerId := cStr trade.buyerId
  sellerId := cStr trade.sellerId
  timestamp := cassTimeFromEpoch trade.timestamp
  buyerOrderId := cStr trade.buyerOrderId
  sellerOrderId := cStr trade.sellerOrderId
  instrument := cStr trade.instrument
  volume := trade.volume
  price := trade.price

/-- `convert_to_trade`. -/
def TradeRow.convertToTrade (row : TradeRow) : Trade where
  buyerId := row.buyerId
  sellerId := row.sellerId
  buyerOrderId := row.buyerOrderId
  sellerOrderId := row.sellerOrderId
  instrument := row.instrument
  volume := row.volume
  price := row.price
  timestamp := row.timestamp

/-- The table, with at most one row for a key. -/
structure TradeStore where
  rows : List TradeRow
  nodup : (rows.map TradeRow.key).Nodup

namespace TradeStore

def empty : TradeStore := ⟨[], List.nodup_nil⟩

/-- `save`. -/
def save (r : TradeStore) (trade : Trade) : TradeStore where
  rows := putRow TradeRow.key r.rows trade.toRow
  nodup := nodup_putRow r.nodup

/-- `get_all_trades`. -/
def getAllTrades (r : TradeStore) : List Trade := r.rows.map TradeRow.convertToTrade

/-- `get_trade_by_primary_key`, which reads the first row of the result whether or not there
is one. -/
def getTradeByPrimaryKey (r : TradeStore) (buyerId sellerId : String) (timestamp : ℤ) :
    Except Fault Trade := do
  let row ← deref (findRow TradeRow.key (cStr buyerId, cStr sellerId, cassTimeFromEpoch timestamp)
    r.rows)
  .ok row.convertToTrade

/-- The trades of a list are saved, one after the other. -/
def saveAll (r : TradeStore) (trades : List Trade) : TradeStore := trades.foldl save r

variable {r : TradeStore} {trades : List Trade}

theorem rows_saveAll :
    (r.saveAll trades).rows = putRows TradeRow.key r.rows (trades.map Trade.toRow) := by
  induction trades generalizing r with
  | nil => rfl
  | cons trade trades ih => rw [saveAll, List.foldl_cons, ← saveAll, ih]; rfl

/-- Trades with distinct keys are all in the table. -/
theorem rows_saveAll_empty (h : ((trades.map Trade.toRow).map TradeRow.key).Nodup) :
    (empty.saveAll trades).rows = trades.map Trade.toRow := by
  rw [rows_saveAll, putRows_eq_append h]
  rfl

/-- What is read with the key of a row. -/
theorem getTradeByPrimaryKey_eq {trade : Trade} (h : trade.toRow ∈ r.rows) :
    r.getTradeByPrimaryKey trade.buyerId trade.sellerId trade.timestamp =
      .ok trade.toRow.convertToTrade := by
  have hfind : findRow TradeRow.key (cStr trade.buyerId, cStr trade.sellerId,
      cassTimeFromEpoch trade.timestamp) r.rows = some trade.toRow :=
    (findRow_eq_some r.nodup).mpr ⟨h, rfl⟩
  rw [getTradeByPrimaryKey, hfind]
  rfl

end TradeStore

end LimitOrderBook
