import Mathlib.Data.List.Sort
import Mathlib.Order.Lattice

/-!
# A price-time engine

The plainest engine that matches by price, then by time: two lists of quotes, the bids with
the highest price first and the asks with the lowest price first
(`LimitOrderBook.PriceTime.Engine`). An incoming order trades with the head of the other list
as long as it accepts its price (`LimitOrderBook.PriceTime.execute`); what is left of it is
dropped or comes after all quotes of its side that are not behind it
(`LimitOrderBook.PriceTime.Engine.add`).

This is what a book with levels, queues and an index is compared with, so nothing here is
meant to be fast.
-/

namespace LimitOrderBook

namespace PriceTime

variable {ι K : Type}

/-- A quote: whose it is, its price, and what is left of it. -/
structure Quote (ι K : Type) where
  id : ι
  price : K
  qty : K
  deriving DecidableEq

section Prices

variable [LinearOrder K]

/-- On a side, the price `p` comes before the price `q`. -/
def Ahead (buys : Bool) (p q : K) : Prop := if buys then q < p else p < q

/-- A buyer or a seller with the limit `p` trades at the price `q`. -/
def Accepts (buys : Bool) (p q : K) : Prop := if buys then q ≤ p else p ≤ q

instance (buys : Bool) (p q : K) : Decidable (Ahead buys p q) := by
  unfold Ahead
  infer_instance

instance (buys : Bool) (p q : K) : Decidable (Accepts buys p q) := by
  unfold Accepts
  infer_instance

theorem Ahead.irrefl {buys : Bool} {p : K} : ¬ Ahead buys p p := by
  cases buys <;> exact lt_irrefl p

theorem Ahead.trans {buys : Bool} {p q r : K} (h : Ahead buys p q) (h' : Ahead buys q r) :
    Ahead buys p r := by
  cases buys
  · exact lt_trans (a := p) h h'
  · exact lt_trans (a := r) h' h

/-- Prices of which neither comes before the other are the same. -/
theorem Ahead.eq_or {buys : Bool} {p q : K} (h : ¬ Ahead buys p q) : p = q ∨ Ahead buys q p := by
  cases buys
  · exact (not_lt.mp h).lt_or_eq.symm.imp_left Eq.symm
  · exact (not_lt.mp h).lt_or_eq.symm

/-- Behind a price of the other side that is not accepted none is. -/
theorem Accepts.of_ahead {buys : Bool} {p q r : K} (h : Accepts buys p r)
    (hqr : Ahead (!buys) q r) : Accepts buys p q := by
  cases buys
  · exact le_trans (a := p) h (le_of_lt hqr)
  · exact le_trans (le_of_lt hqr) h

end Prices

/-! ### Executing -/

section Execute

variable [LinearOrder K] [Zero K] [Sub K]

/-- **An incoming order against the quotes of the other side**: what is left of it, and of
them. -/
def execute (buys : Bool) (limit : K) : K → List (Quote ι K) → K × List (Quote ι K)
  | q, [] => (q, [])
  | q, head :: rest =>
    if 0 < q ∧ Accepts buys limit head.price then
      let traded := min q head.qty
      if head.qty = traded then execute buys limit (q - traded) rest
      else (q - traded, { head with qty := head.qty - traded } :: rest)
    else (q, head :: rest)

variable {buys : Bool} {limit q : K}

theorem execute_of_not_lt (hq : ¬ 0 < q) (l : List (Quote ι K)) :
    execute buys limit q l = (q, l) := by
  cases l with
  | nil => rfl
  | cons x l => rw [execute, if_neg fun hc => hq hc.1]

/-- No price is accepted. -/
theorem execute_of_not_accepts {l : List (Quote ι K)}
    (h : ∀ x ∈ l, ¬ Accepts buys limit x.price) : execute buys limit q l = (q, l) := by
  cases l with
  | nil => rfl
  | cons x l => rw [execute, if_neg fun hc => h x (by simp) hc.2]

end Execute

/-! ### The engine -/

/-- The two lists. -/
structure Engine (ι K : Type) where
  bids : List (Quote ι K)
  asks : List (Quote ι K)
  deriving DecidableEq

namespace Engine

/-- The list of a side. -/
def side (e : Engine ι K) : Bool → List (Quote ι K)
  | true => e.bids
  | false => e.asks

def withSide (e : Engine ι K) (l : List (Quote ι K)) : Bool → Engine ι K
  | true => { e with bids := l }
  | false => { e with asks := l }

@[simp] theorem side_withSide (e : Engine ι K) (l : List (Quote ι K)) (b : Bool) :
    (e.withSide l b).side b = l := by
  cases b <;> rfl

@[simp] theorem side_withSide_not (e : Engine ι K) (l : List (Quote ι K)) (b : Bool) :
    (e.withSide l !b).side b = e.side b := by
  cases b <;> rfl

@[simp] theorem side_not_withSide (e : Engine ι K) (l : List (Quote ι K)) (b : Bool) :
    (e.withSide l b).side (!b) = e.side !b := by
  cases b <;> rfl

section Add

variable [LinearOrder K] [Zero K] [Sub K]

/-- A new quote comes after all those of its side that are not behind it. -/
def insert (e : Engine ι K) (buys : Bool) (x : Quote ι K) : Engine ι K :=
  e.withSide ((e.side buys).orderedInsert (fun y z => Ahead buys y.price z.price) x) buys

/-- **A new order**, which is dropped if it is `immediate` and not filled; the second component
is what is left of it. -/
def add (e : Engine ι K) (buys immediate : Bool) (x : Quote ι K) : Engine ι K × K :=
  let r := execute buys x.price x.qty (e.side !buys)
  let e := e.withSide r.2 !buys
  (if r.1 = 0 ∨ immediate = true then e else e.insert buys { x with qty := r.1 }, r.1)

end Add

/-- The quotes with an id are withdrawn. -/
def cancel [DecidableEq ι] (e : Engine ι K) (id : ι) : Engine ι K where
  bids := e.bids.filter (·.id ≠ id)
  asks := e.asks.filter (·.id ≠ id)

/-- There is a quote with the id. -/
def has [DecidableEq ι] (e : Engine ι K) (id : ι) : Bool :=
  (e.bids ++ e.asks).any (·.id = id)

theorem side_cancel [DecidableEq ι] (e : Engine ι K) (id : ι) (b : Bool) :
    (e.cancel id).side b = (e.side b).filter (·.id ≠ id) := by
  cases b <;> rfl

theorem has_iff [DecidableEq ι] (e : Engine ι K) (id : ι) :
    e.has id = true ↔ ∃ b, ∃ x ∈ e.side b, x.id = id := by
  simp only [has, List.any_append, Bool.or_eq_true, List.any_eq_true, decide_eq_true_eq,
    Bool.exists_bool, side, or_comm]

end Engine

/-! ### Lists in order -/

section Sorted

variable [LinearOrder K] {σ : Type} {price : σ → K} {buys : Bool} {R : σ → σ → Prop}

/-- What comes after all that is not behind it comes in its place, if `R` is the order of
prices, and among equal prices one in which it is last. -/
theorem pairwise_orderedInsert {l : List σ} {x : σ}
    (hl : l.Pairwise fun y z => Ahead buys (price y) (price z) ∨ price y = price z ∧ R y z)
    (hx : ∀ y ∈ l, R y x) :
    (l.orderedInsert (fun y z => Ahead buys (price y) (price z)) x).Pairwise fun y z =>
      Ahead buys (price y) (price z) ∨ price y = price z ∧ R y z := by
  induction l with
  | nil => simp
  | cons y l ih =>
    obtain ⟨hy, hl⟩ := List.pairwise_cons.mp hl
    rw [List.orderedInsert_cons]
    split
    · next hlt =>
      refine List.pairwise_cons.mpr ⟨fun z hz => Or.inl ?_, List.pairwise_cons.mpr ⟨hy, hl⟩⟩
      rcases List.mem_cons.mp hz with rfl | hz
      · exact hlt
      · rcases hy z hz with hyz | ⟨hyz, -⟩
        · exact hlt.trans hyz
        · exact hyz ▸ hlt
    · next hlt =>
      refine List.pairwise_cons.mpr
        ⟨fun z hz => ?_, ih hl fun z hz => hx z (List.mem_cons_of_mem y hz)⟩
      rw [List.mem_orderedInsert] at hz
      rcases hz with rfl | hz
      · exact (Ahead.eq_or hlt).symm.imp_right fun he => ⟨he.symm, hx y (by simp)⟩
      · exact hy z hz

end Sorted

end PriceTime

end LimitOrderBook
