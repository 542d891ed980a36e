import LimitOrderBook.Exchange.Routing
import LimitOrderBook.Ledger.Recovered

/-!
# Every instrument has a worker of its own

The constructor numbers the instruments and makes as many workers
(`LimitOrderBook.Routing.Opened`). An instrument that is added later gets the next number, for
which there is no worker: the first request for it would index past the end of the vector. So
the routes are right as long as nothing new is added (`LimitOrderBook.routing_iff`); that no
further numbering would do is the pigeonhole principle
(`LimitOrderBook.Routing.length_le`).
-/

namespace LimitOrderBook

namespace Routing

variable {E : Routing} {names : List String}

/-- **Every instrument has a book and a worker of its own.** -/
structure Routes (E : Routing) : Prop where
  /-- Every instrument has an index. -/
  entry : ∀ X ∈ E.instruments, ∃ idx, E.instrumentIdx.lookup X = some idx
  /-- Every index is that of a worker. -/
  valid : ∀ X idx, E.instrumentIdx.lookup X = some idx → idx.toNat < E.workers
  /-- No book is a null pointer. -/
  book : ∀ X b, E.instruments.lookup X = some b → b.isSome = true
  /-- Different instruments have different workers. -/
  apart : ∀ X Y idx, E.instrumentIdx.lookup X = some idx → E.instrumentIdx.lookup Y = some idx →
    X = Y

/-- A call does not add a new instrument. -/
def addsNothing (E : Routing) : Call → Prop
  | .addInstrument instrument _ _ => E.instrumentExists instrument = true
  | _ => True

/-! ### Counting -/

/-- **The pigeonhole principle** for indices: there are at least as many as instruments. -/
theorem length_le {n : ℕ} (hvalid : ∀ X idx, E.instrumentIdx.lookup X = some idx → idx.toNat < n)
    (hapart : ∀ X Y idx, E.instrumentIdx.lookup X = some idx → E.instrumentIdx.lookup Y = some idx →
      X = Y) (hnd : names.Nodup) (hmem : ∀ X ∈ names, X ∈ E.instrumentIdx) : names.length ≤ n := by
  have hlook : ∀ X ∈ names, ∃ idx, E.instrumentIdx.lookup X = some idx := fun X hX =>
    Option.isSome_iff_exists.mp (AList.lookup_isSome.mpr (hmem X hX))
  have hnd' : (names.map fun X => ((E.instrumentIdx.lookup X).getD 0).toNat).Nodup := by
    refine hnd.map_on fun X hX Y hY he => ?_
    obtain ⟨i, hi⟩ := hlook X hX
    obtain ⟨j, hj⟩ := hlook Y hY
    rw [hi, hj, Option.getD_some, Option.getD_some, UInt32.toNat_inj] at he
    exact hapart X Y i hi (he ▸ hj)
  have hsub : (names.map fun X => ((E.instrumentIdx.lookup X).getD 0).toNat) ⊆ List.range n := by
    intro k hk
    obtain ⟨X, hX, rfl⟩ := List.mem_map.mp hk
    obtain ⟨i, hi⟩ := hlook X hX
    rw [hi, Option.getD_some, List.mem_range]
    exact hvalid X i hi
  have hle := (List.subperm_of_subset hnd' hsub).length_le
  rwa [List.length_map, List.length_range] at hle

/-! ### The constructor -/

/-- What is known after the instruments of a list have been registered. -/
structure Opened (E : Routing) (done : List (String × ℚ)) : Prop where
  idx : ∀ X v, E.instrumentIdx.lookup X = some v ↔
    ∃ k : ℕ, (done.map Prod.fst)[k]? = some X ∧ v = UInt32.ofNat k
  exists_iff : ∀ X, X ∈ E.instruments ↔ X ∈ done.map Prod.fst
  book : ∀ X b, E.instruments.lookup X = some b → ∃ s L, b = some s ∧ Refines s L

theorem opened_empty : Opened empty [] := ⟨by simp [empty], by simp [empty], by simp [empty]⟩

theorem Opened.register {done : List (String × ℚ)} (h : E.Opened done) {i : String × ℚ}
    (hi : i.1 ∉ done.map Prod.fst) {s : OrderBook} {L : Ledger} (hs : Refines s L) :
    (E.register i.1 done.length s).Opened (done ++ [i]) := by
  have hexists : E.instrumentExists i.1 = false := by
    simpa [instrumentExists] using mt (h.exists_iff i.1).mp hi
  have hinst : (E.register i.1 done.length s).instruments = E.instruments.insert i.1 (some s) := by
    rw [Routing.register, hexists]
    rfl
  refine ⟨fun X v => ?_, fun X => ?_, fun X b hb => ?_⟩
  · rw [Routing.register, List.map_append, List.map_cons, List.map_nil]
    simp only [getElem?_concat_eq_some, List.length_map]
    by_cases hX : X = i.1
    · subst hX
      rw [AList.lookup_insert, Option.some.injEq]
      constructor
      · rintro rfl
        exact ⟨done.length, Or.inr ⟨rfl, rfl⟩, rfl⟩
      · rintro ⟨k, hk | ⟨rfl, -⟩, rfl⟩
        · exact absurd (List.mem_of_getElem? hk) hi
        · rfl
    · rw [AList.lookup_insert_ne hX, h.idx]
      refine exists_congr fun k => and_congr_left fun _ => ?_
      exact (or_iff_left fun hk => hX hk.2).symm
  · rw [hinst, AList.mem_insert, h.exists_iff, List.map_append, List.mem_append, List.map_cons,
      List.map_nil, List.mem_singleton, or_comm]
  · rw [hinst] at hb
    by_cases hX : X = i.1
    · subst hX
      rw [AList.lookup_insert, Option.some.injEq] at hb
      exact ⟨s, L, hb.symm, hs⟩
    · rw [AList.lookup_insert_ne hX] at hb
      exact h.book X b hb

theorem Opened.openInstruments {records : List OrderData} {done rest : List (String × ℚ)}
    (h : E.Opened done) (hd : ((done ++ rest).map Prod.fst).Nodup) :
    ∃ E', openInstruments records done.length E rest = .ok E' ∧ E'.Opened (done ++ rest) := by
  induction rest generalizing E done with
  | nil => exact ⟨E, rfl, by rwa [List.append_nil]⟩
  | cons i rest ih =>
    obtain ⟨s, hs, href⟩ := refines_new i.1 i.2 records
    have hi : i.1 ∉ done.map Prod.fst := by
      rw [List.map_append, List.map_cons, List.nodup_append] at hd
      exact fun hmem => hd.2.2 _ hmem _ (by simp) rfl
    rw [List.append_cons] at hd ⊢
    obtain ⟨E', hE', h'⟩ := ih (h.register hi href) hd
    refine ⟨E', ?_, h'⟩
    rw [List.length_append] at hE'
    rw [Routing.openInstruments, hs, ok_bind]
    exact hE'

/-! ### One call -/

/-- What holds however many instruments have been added. -/
structure Sound (E : Routing) : Prop where
  /-- The instruments are those with an index. -/
  exists_iff : ∀ X, X ∈ E.instruments ↔ X ∈ E.instrumentIdx
  /-- The books are sound. -/
  book : ∀ X b, E.instruments.lookup X = some b → ∃ s L, b = some s ∧ Refines s L
  /-- There are at least as many instruments as workers. -/
  many : ∃ names : List String, names.Nodup ∧ names.length = E.workers ∧
    ∀ X ∈ names, X ∈ E.instrumentIdx

theorem Sound.addInstrument (h : E.Sound) (hp : E.Routes) (X : String) (p : ℚ)
    (records : List OrderData) : ∃ E' ok, E.addInstrument X p records = .ok (E', ok) ∧ E'.Sound ∧
      (E'.Routes ↔ E.instrumentExists X = true) := by
  by_cases hX : E.instrumentExists X = true
  · exact ⟨E, false, by rw [Routing.addInstrument, if_pos hX], h, iff_of_true hp hX⟩
  · obtain ⟨s, hs, href⟩ := refines_new X p records
    obtain ⟨E', hE'⟩ : ∃ E', E' = E.register X E.instruments.keys.length s := ⟨_, rfl⟩
    have hidx : E'.instrumentIdx =
        E.instrumentIdx.insert X (UInt32.ofNat E.instruments.keys.length) := by rw [hE']; rfl
    have hinst : E'.instruments = E.instruments.insert X (some s) := by
      rw [hE', Routing.register, if_neg hX]
    have hworkers : E'.workers = E.workers := by rw [hE']; rfl
    have hnew : X ∉ E.instrumentIdx := fun hmem =>
      hX (decide_eq_true ((h.exists_iff X).mpr hmem))
    obtain ⟨names, hnd, hlen, hmem⟩ := h.many
    refine ⟨E', true, ?_, ⟨fun Y => ?_, fun Y b hb => ?_, names, hnd, hlen.trans hworkers.symm,
      fun Y hY => ?_⟩, iff_of_false (fun hp' => ?_) hX⟩
    · rw [Routing.addInstrument, if_neg hX, hs, hE']
      rfl
    · rw [hinst, hidx, AList.mem_insert, AList.mem_insert, h.exists_iff]
    · rw [hinst] at hb
      by_cases hY : Y = X
      · subst hY
        rw [AList.lookup_insert, Option.some.injEq] at hb
        exact ⟨s, _, hb.symm, href⟩
      · rw [AList.lookup_insert_ne hY] at hb
        exact h.book Y b hb
    · rw [hidx, AList.mem_insert]
      exact Or.inr (hmem Y hY)
    · -- one instrument more than there are workers
      have hle : (X :: names).length ≤ _ := length_le hp'.valid hp'.apart
        (List.nodup_cons.mpr ⟨fun hXn => hnew (hmem X hXn), hnd⟩) fun Y hY => by
          rw [hidx, AList.mem_insert]
          exact (List.mem_cons.mp hY).imp_right (hmem Y)
      rw [List.length_cons, hlen, hworkers] at hle
      omega

/-- A request for an instrument that exists. -/
theorem Sound.submit (h : E.Sound) (hp : E.Routes) {X : String} (hX : X ∈ E.instruments)
    (r : OrderBook.Request) : ∃ E' status, E.submit X r = .ok (E', status) ∧ E'.Sound ∧
      E'.Routes := by
  obtain ⟨idx, hidx⟩ := hp.entry X hX
  obtain ⟨b, hb⟩ := Option.isSome_iff_exists.mp (AList.lookup_isSome.mpr hX)
  obtain ⟨s, L, rfl, href⟩ := h.book X b hb
  obtain ⟨s', hs', href'⟩ := href.step r
  have htouch : E.touch X = E := by
    have hX' : E.instrumentExists X = true := decide_eq_true hX
    rw [touch, if_pos ((h.exists_iff X).mp hX), if_pos hX']
  have hmem : ∀ Y, Y ∈ E.instruments.insert X (some s') ↔ Y ∈ E.instruments := fun Y => by
    rw [AList.mem_insert, or_iff_right_of_imp]
    rintro rfl
    exact hX
  have hlook : ∀ Y b, (E.instruments.insert X (some s')).lookup Y = some b →
      b = some s' ∨ E.instruments.lookup Y = some b := fun Y b hb => by
    by_cases hY : Y = X
    · subst hY
      rw [AList.lookup_insert, Option.some.injEq] at hb
      exact Or.inl hb.symm
    · rw [AList.lookup_insert_ne hY] at hb
      exact Or.inr hb
  refine ⟨{ E with instruments := E.instruments.insert X (some s') }, (L.step r).2, ?_, ?_, ?_⟩
  · simp only [Routing.submit, htouch, hidx, deref_some, ok_bind, enqueueTask,
      if_pos (hp.valid X idx hidx), hb, hs']
  · refine ⟨fun Y => (hmem Y).trans (h.exists_iff Y), fun Y b hb => ?_, h.many⟩
    rcases hlook Y b hb with rfl | hb
    · exact ⟨s', _, rfl, href'⟩
    · exact h.book Y b hb
  · refine ⟨fun Y hY => hp.entry Y ((hmem Y).mp hY), hp.valid, fun Y b hb => ?_, hp.apart⟩
    rcases hlook Y b hb with rfl | hb
    · rfl
    · exact hp.book Y b hb

/-- **A call** keeps the routes right exactly if it does not add a new instrument. -/
theorem Sound.step (h : E.Sound) (hp : E.Routes) (c : Call) :
    ∃ E' answer, E.step c = .ok (E', answer) ∧ E'.Sound ∧ (E'.Routes ↔ E.addsNothing c) := by
  have hrequest : ∀ X r, ∃ E' answer, E.request X r = .ok (E', answer) ∧ E'.Sound ∧
      (E'.Routes ↔ True) := fun X r => by
    rw [request]
    split
    · next hX =>
      obtain ⟨E', status, hE', h', hp'⟩ := h.submit hp (of_decide_eq_true hX) r
      exact ⟨E', .status status, by rw [hE']; rfl, h', iff_of_true hp' trivial⟩
    · exact ⟨E, .refused, rfl, h, iff_of_true hp trivial⟩
  cases c with
  | addInstrument X p records =>
    obtain ⟨E', ok, hE', h', hiff⟩ := h.addInstrument hp X p records
    exact ⟨E', .added ok, by rw [Routing.step, hE']; rfl, h', hiff⟩
  | addOrder now X order => exact hrequest X _
  | modifyOrder X order => exact hrequest X _
  | cancelOrder X orderId => exact hrequest X _

/-! ### The start -/

/-- The routes of a new exchange are right if its instruments can be counted in 32 bits. -/
theorem Opened.routes {infos : List (String × ℚ)} (h : E.Opened infos)
    (hd : (infos.map Prod.fst).Nodup) (hworkers : E.workers = infos.length) :
    E.Sound ∧ (E.Routes ↔ infos.length ≤ 2 ^ 32) := by
  have hmem : ∀ X, X ∈ E.instrumentIdx ↔ X ∈ infos.map Prod.fst := fun X => by
    rw [← AList.lookup_isSome, Option.isSome_iff_exists, List.mem_iff_getElem?]
    constructor
    · rintro ⟨v, hv⟩
      obtain ⟨k, hk, -⟩ := (h.idx X v).mp hv
      exact ⟨k, hk⟩
    · rintro ⟨k, hk⟩
      exact ⟨_, (h.idx X _).mpr ⟨k, hk, rfl⟩⟩
  have hsound : E.Sound := ⟨fun X => (h.exists_iff X).trans (hmem X).symm, h.book,
    infos.map Prod.fst, hd, by rw [List.length_map, hworkers], fun X hX => (hmem X).mpr hX⟩
  refine ⟨hsound, fun hp => ?_, fun hlen => ?_⟩
  · have hle := length_le (n := 2 ^ 32) (fun _ idx _ => idx.toNat_lt) hp.apart hd
      fun X hX => (hmem X).mpr hX
    rwa [List.length_map] at hle
  · have hlt : ∀ {k : ℕ} {X}, (infos.map Prod.fst)[k]? = some X →
        k < infos.length ∧ (UInt32.ofNat k).toNat = k := fun {k X} hk => by
      obtain ⟨hk, -⟩ := List.getElem?_eq_some_iff.mp hk
      rw [List.length_map] at hk
      exact ⟨hk, UInt32.toNat_ofNat_of_lt' (by rw [UInt32.size]; omega)⟩
    refine ⟨fun X hX => ?_, fun X idx hX => ?_, fun X b hb => ?_, fun X Y idx hX hY => ?_⟩
    · exact Option.isSome_iff_exists.mp (AList.lookup_isSome.mpr ((hsound.exists_iff X).mp hX))
    · obtain ⟨k, hk, rfl⟩ := (h.idx X idx).mp hX
      rw [(hlt hk).2, hworkers]
      exact (hlt hk).1
    · obtain ⟨s, L, rfl, -⟩ := h.book X b hb
      rfl
    · obtain ⟨k, hk, rfl⟩ := (h.idx X idx).mp hX
      obtain ⟨j, hj, he⟩ := (h.idx Y _).mp hY
      have hkj : k = j := by rw [← (hlt hk).2, he, (hlt hj).2]
      rw [hkj, hj] at hk
      exact (Option.some.inj hk).symm

end Routing

/-- **In every run of calls** on an exchange with distinct instruments, the routes are right
throughout if and only if no new instrument is added (and the constructor is not given more
than there are numbers of 32 bits). -/
theorem routing_iff (records : List OrderData) {infos : List (String × ℚ)}
    (hd : (infos.map Prod.fst).Nodup) (cs : List Routing.Call) :
    ∃ E, Routing.new records infos = .ok E ∧
      (Throughout Routing.step Routing.Routes E cs ↔
        infos.length ≤ 2 ^ 32 ∧ Meets Routing.step Routing.addsNothing E cs) := by
  obtain ⟨E, hE, h⟩ : ∃ E, Routing.openInstruments records 0 Routing.empty infos = .ok E ∧
      E.Opened ([] ++ infos) := Routing.opened_empty.openInstruments (by rwa [List.nil_append])
  rw [List.nil_append] at h
  have h' : Routing.Opened { E with workers := infos.length } infos := ⟨h.idx, h.exists_iff, h.book⟩
  obtain ⟨hsound, hstart⟩ := h'.routes hd rfl
  refine ⟨{ E with workers := infos.length }, ?_, ?_⟩
  · rw [Routing.new, hE]
    rfl
  constructor
  · intro hrun
    have hp : Routing.Routes { E with workers := infos.length } := by
      obtain ⟨s', answers, hnil, hp⟩ := hrun [] cs rfl
      obtain ⟨rfl, -⟩ := Prod.mk.inj (Except.ok.inj hnil)
      exact hp
    exact ⟨hstart.mp hp, (throughout_iff_meets (Q := fun _ => True)
      (fun s c _ hI hp => hI.step hp c) (fun _ _ => trivial) hsound hp).mp hrun⟩
  · rintro ⟨hlen, hmeets⟩
    exact (throughout_iff_meets (Q := fun _ => True)
      (fun s c _ hI hp => hI.step hp c) (fun _ _ => trivial) hsound (hstart.mpr hlen)).mpr hmeets

/-- Two instruments, one of which is added once more. -/
theorem routing_iff_two : ∃ E, Routing.new [] [("X", 10), ("Y", 5)] = .ok E ∧
    (Throughout Routing.step Routing.Routes E
        [.addInstrument "X" 3 [], .addOrder 0 "Y" (.limit "a" .buy 5 10)] ↔
      [("X", (10 : ℚ)), ("Y", 5)].length ≤ 2 ^ 32 ∧ Meets Routing.step Routing.addsNothing E
        [.addInstrument "X" 3 [], .addOrder 0 "Y" (.limit "a" .buy 5 10)]) :=
  routing_iff [] (by decide) _

/-- An instrument that is added later has the number of no worker: the first order for it goes
past the end of the vector. -/
theorem routing_past_end : ∃ E, Routing.new [] [("X", 10)] = .ok E ∧
    runAll Routing.step E [.addInstrument "Y" 5 [], .addOrder 0 "Y" (.limit "a" .buy 5 10)] =
      .error .badPointer ∧
    ¬ Throughout Routing.step Routing.Routes E
      [.addInstrument "Y" 5 [], .addOrder 0 "Y" (.limit "a" .buy 5 10)] := by
  refine ⟨_, rfl, rfl, fun h => ?_⟩
  obtain ⟨s', answers, hrun, -⟩ := h _ [] (List.append_nil _).symm
  exact absurd hrun (by rintro ⟨⟩)

end LimitOrderBook
