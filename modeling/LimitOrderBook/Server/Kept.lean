import LimitOrderBook.Ledger.Gone
import LimitOrderBook.Server.Events

/-!
# The state of the server and its history

The invariant `LimitOrderBook.Server.Kept` ties the state of the server to its history: the index of
a book leads from open ids only, what is in the repository was submitted, and what is on its way
there was submitted or is done with. Every event keeps it (`LimitOrderBook.Server.Kept.does`).
-/

namespace LimitOrderBook

open OrderBook (Request)

namespace Server

variable {uuid : ℕ → String} {toFloat : ℚ → ℚ} {store : OrderStore} {h : List Entry} {x : Entry}
  {X Y id : String} {d d' : OrderData}

/-- The repository may be told of the order: it was submitted, or is done with. -/
def Sent (toFloat : ℚ → ℚ) (h : List Entry) (d : OrderData) : Prop :=
  Submitted toFloat h d.archived ∨ d.cancelled = true ∨ d.currentQty = 0

theorem Sent.concat (hd : Sent toFloat h d) (x : Entry) : Sent toFloat (h ++ [x]) d :=
  hd.imp_left fun hd => hd.concat x

/-! ### The invariant -/

/-- What holds of the book of the instrument `X`. -/
structure BookKept (toFloat : ℚ → ℚ) (h : List Entry) (X : String) (s : OrderBook) (L : Ledger) :
    Prop where
  refines : Refines s L
  queued : ∀ o ∈ L.orderQueue,
    o < L.nextOrder ∧ (Submitted toFloat h (L.order o).archived ∨ L.Gone o)
  entry : ∀ id o, L.orders.lookup id = some o →
    Open h X id ∧ Submitted toFloat h (L.order o).archived

theorem BookKept.concat {s : OrderBook} {L : Ledger} (hL : BookKept toFloat h X s L)
    (hrestart : ¬ Restarts x)
    (hsettles : ∀ id o, L.orders.lookup id = some o → ∀ Y, ¬ Settles Y id x) :
    BookKept toFloat (h ++ [x]) X s L where
  refines := hL.refines
  queued := fun o ho => (hL.queued o ho).imp_right (Or.imp_left fun hd => hd.concat x)
  entry := fun id o ho => by
    obtain ⟨hopen, hsub⟩ := hL.entry id o ho
    exact ⟨hopen.concat hrestart (hsettles id o ho), hsub.concat x⟩

/-- **The state and the history agree**, from a repository with the given records on. -/
structure Kept (uuid : ℕ → String) (toFloat : ℚ → ℚ) (store : OrderStore) (E : Exchange)
    (h : List Entry) : Prop where
  book : ∀ X s, E.books.lookup X = some s → ∃ L, BookKept toFloat h X s L
  record : ∀ d ∈ E.store.records, d ∈ store.records ∨
    Submitted toFloat h d ∧ d.cancelled = false ∧ d.currentQty ≠ 0
  orphan : ∀ d, Message.orphan d ∈ E.queue → Sent toFloat h d
  handle : ∀ X o, Message.handle X o ∈ E.queue →
    ∃ s, E.books.lookup X = some s ∧ o ∈ s.orderQueue
  known : ∀ y ∈ h, ∀ X id, Hands X id y ∨ Settles X id y → ∃ k < E.generated, id = uuid k
  once : ∀ y ∈ h, ∀ z ∈ h, ∀ X Y id, Hands X id y → Hands Y id z → X = Y

theorem kept_closed (store : OrderStore) : Kept uuid toFloat store (.closed store) [] where
  book := by simp [Exchange.closed]
  record := fun d hd => Or.inl hd
  orphan := by simp [Exchange.closed]
  handle := by simp [Exchange.closed]
  known := by simp
  once := by simp

namespace Kept

variable {E : Exchange} {s s' : OrderBook} {L : Ledger} {g : ℕ}
  (hk : Kept uuid toFloat store E h)

include hk

/-- What a message is about was submitted, or is done with. -/
theorem read {m : Message} (hm : m ∈ E.queue) : ∃ d, E.read m = some d ∧ Sent toFloat h d := by
  cases m with
  | handle X o =>
    obtain ⟨s, hs, ho⟩ := hk.handle X o hm
    obtain ⟨L, hL⟩ := hk.book X s hs
    refine ⟨(s.order o).toOrderData, by rw [Exchange.read, hs]; rfl, ?_⟩
    rw [hL.refines.order]
    exact (hL.queued o (hL.refines.orderQueue ▸ ho)).2.imp_right fun hgone => hgone.done
  | orphan d => exact ⟨d, rfl, hk.orphan d hm⟩

theorem usable : E.Usable where
  book := fun X s hs => by
    obtain ⟨L, hL⟩ := hk.book X s hs
    exact ⟨L, hL.refines⟩
  message := fun m hm => by
    obtain ⟨d, hd, -⟩ := hk.read hm
    exact ⟨d, hd⟩

/-- Something happens that hands out and settles nothing. -/
theorem silent {E' : Exchange} (hgen : E'.generated = E.generated)
    (hhands : ∀ Y id, ¬ Hands Y id x) (hsettles : ∀ Y id, ¬ Settles Y id x)
    (hbook : ∀ X s, E'.books.lookup X = some s → ∃ L, BookKept toFloat (h ++ [x]) X s L)
    (hrecord : ∀ d ∈ E'.store.records, d ∈ store.records ∨
      Submitted toFloat h d ∧ d.cancelled = false ∧ d.currentQty ≠ 0)
    (horphan : ∀ d, Message.orphan d ∈ E'.queue → Sent toFloat h d)
    (hhandle : ∀ X o, Message.handle X o ∈ E'.queue →
      ∃ s, E'.books.lookup X = some s ∧ o ∈ s.orderQueue) :
    Kept uuid toFloat store E' (h ++ [x]) where
  book := hbook
  record := fun d hd => (hrecord d hd).imp_right fun hd => ⟨hd.1.concat x, hd.2⟩
  orphan := fun d hd => (horphan d hd).concat x
  handle := hhandle
  known := fun y hy X id hid => by
    rw [hgen]
    rcases List.mem_append.mp hy with hy | hy
    · exact hk.known y hy X id hid
    · rw [List.mem_singleton.mp hy] at hid
      exact absurd hid (not_or.mpr ⟨hhands X id, hsettles X id⟩)
  once := fun y hy z hz X Y id hX hY => by
    rcases List.mem_append.mp hy with hy | hy
    · rcases List.mem_append.mp hz with hz | hz
      · exact hk.once y hy z hz X Y id hX hY
      · exact absurd (List.mem_singleton.mp hz ▸ hY) (hhands Y id)
    · exact absurd (List.mem_singleton.mp hy ▸ hX) (hhands X id)

/-- The exchange stays as it is. -/
theorem quiet (hrestart : ¬ Restarts x) (hhands : ∀ Y id, ¬ Hands Y id x)
    (hsettles : ∀ Y id, ¬ Settles Y id x) : Kept uuid toFloat store E (h ++ [x]) := by
  refine hk.silent rfl hhands hsettles (fun X s hs => ?_) hk.record hk.orphan hk.handle
  obtain ⟨L, hL⟩ := hk.book X s hs
  exact ⟨L, hL.concat hrestart fun id _ _ Y => hsettles Y id⟩

/-- An open id has been generated. -/
theorem generated_of_open (ho : Open h X id) : ∃ k < E.generated, id = uuid k := by
  obtain ⟨y, hy, hyid⟩ := ho.hands
  exact hk.known y hy X id (Or.inl hyid)

theorem eq_of_open (ho : Open h X id) (ho' : Open h Y id) : X = Y := by
  obtain ⟨y, hy, hyid⟩ := ho.hands
  obtain ⟨z, hz, hzid⟩ := ho'.hands
  exact hk.once y hy z hz X Y id hyid hzid

end Kept

namespace Kept

variable {E : Exchange} {s s' : OrderBook} {L : Ledger} {r : Request} {g : ℕ}
  (hk : Kept uuid toFloat store E h) (huuid : Function.Injective uuid)

include hk huuid

/-- The book after the request. -/
theorem bookKept_step (hL : BookKept toFloat h X s L)
    (hr : Replied uuid toFloat X L r E.generated g x) (h' : Refines s' (L.step r).1) :
    BookKept toFloat (h ++ [x]) X s' (L.step r).1 := by
  have hwf := hL.refines.wf
  have hold : ∀ o < L.nextOrder, Submitted toFloat h (L.order o).archived →
      Submitted toFloat (h ++ [x]) ((L.step r).1.order o).archived := fun o ho hsub =>
    (hsub.concat x).congr (hwf.step_keeps r ho).archived
  have hnew : ∀ a, Ledger.submitted r = some a → (L.step r).2 = some (placedAs r) →
      Submitted toFloat (h ++ [x]) ((L.step r).1.order L.nextOrder).archived := fun a ha hplaced =>
    ⟨x, by simp, ((hr.submits a ha).2 hplaced).congr (hwf.step_new ha).archived⟩
  refine ⟨h', fun o ho => ?_, fun id o ho => ?_⟩
  · obtain ⟨new, hqueue, hhands⟩ := hwf.handsOver r
    rw [hqueue] at ho
    rcases List.mem_append.mp ho with ho | ho
    · obtain ⟨hlt, hsub⟩ := hL.queued o ho
      exact ⟨hlt.trans_le (L.nextOrder_le_step r), hsub.imp (hold o hlt) fun hgone =>
        hwf.gone_step hgone r⟩
    · cases hhands with
      | found new hid hfree hfound =>
        obtain ⟨⟨id, hlook⟩, -⟩ := hfound o ho
        have hlt := hwf.entry_lt id o hlook
        exact ⟨hlt.trans_le (L.nextOrder_le_step r), Or.inl (hold o hlt (hL.entry id o hlook).2)⟩
      | placed a ha hid =>
        rw [List.mem_singleton.mp ho]
        refine ⟨Ledger.nextOrder_lt_step ha, ?_⟩
        cases r with
        | add now b => exact (hwf.accepted_or_gone now b).imp (hnew a ha) And.left
        | modify b =>
          obtain ⟨e, he⟩ := hid.resolve_left (by simp [Ledger.newId])
          exact Or.inl (hnew a ha he.status)
        | _ => exact absurd ha (by simp [Ledger.submitted])
  · rcases (hwf.recorded r).entry id o ho with hlook | ⟨rfl, hid⟩
    · obtain ⟨hopen, hsub⟩ := hL.entry id o hlook
      refine ⟨hopen.concat hr.restart fun Y hY => ?_, hold o (hwf.entry_lt id o hlook) hsub⟩
      rw [(hr.settles Y id hY).2.2] at ho
      exact absurd ho (by simp)
    · obtain ⟨now, a, rfl⟩ := Ledger.add_of_newId hid
      have haccepted := (hwf.accepted_or_gone now a).resolve_right fun hgone => hgone.2 id ho
      have hx := (hr.newId id hid).2.2 haccepted
      obtain ⟨-, hgen, -⟩ := hr.hands X id hx
      -- an id that has just been generated was not known before
      have hfresh : ∀ k < E.generated, id ≠ uuid k := fun k hlt he =>
        hlt.ne (huuid (he.symm.trans hgen))
      refine ⟨hx.open fun y hy Y hY => ?_, ?_⟩
      · rcases List.mem_append.mp hy with hy | hy
        · obtain ⟨k, hlt, he⟩ := hk.known y hy Y id (Or.inr hY)
          exact hfresh k hlt he
        · rw [List.mem_singleton.mp hy] at hY
          obtain ⟨o, hlook⟩ := (hr.settles Y id hY).2.1
          obtain ⟨k, hlt, he⟩ := hk.generated_of_open (hL.entry id o hlook).1
          exact hfresh k hlt he
      · exact hnew a rfl haccepted

/-- **A request to one book.** -/
theorem setBook (hX : E.books.lookup X = some s) (hL : BookKept toFloat h X s L)
    (hr : Replied uuid toFloat X L r E.generated g x) (hg : E.generated ≤ g)
    (h' : Refines s' (L.step r).1) :
    Kept uuid toFloat store (E.setBook X s s' g) (h ++ [x]) := by
  have hL' := hk.bookKept_step huuid hL hr h'
  obtain ⟨new, hqueue, -⟩ := hL.refines.wf.handsOver r
  have hgrown : s'.orderQueue = s.orderQueue ++ new := by
    rw [h'.orderQueue, hqueue, hL.refines.orderQueue]
  have hmem : ∀ m ∈ (E.setBook X s s' g).queue, m ∈ E.queue ∨ ∃ o ∈ new, m = .handle X o := by
    intro m hm
    rw [E.queue_setBook hL.refines h' hqueue, List.mem_append, List.mem_map] at hm
    refine hm.imp_right ?_
    rintro ⟨o, ho, rfl⟩
    exact ⟨o, ho, rfl⟩
  have hhands : ∀ Y id, Hands Y id x → ∀ k < E.generated, id ≠ uuid k := fun Y id hY k hlt he =>
    hlt.ne (huuid (he.symm.trans (hr.hands Y id hY).2.1))
  refine ⟨fun Y t ht => ?_, fun d hd => ?_, fun d hd => ?_, fun Y o ho => ?_,
    fun y hy Y id hid => ?_, fun y hy z hz Y Z id hY hZ => ?_⟩
  · by_cases hY : Y = X
    · subst hY
      rw [Exchange.setBook, AList.lookup_insert, Option.some.injEq] at ht
      exact ⟨_, ht ▸ hL'⟩
    · rw [Exchange.setBook, AList.lookup_insert_ne hY] at ht
      obtain ⟨M, hM⟩ := hk.book Y t ht
      -- an id that is open for `Y` is not settled by a request for `X`
      refine ⟨M, hM.concat hr.restart fun id o ho Z hZ => hY ?_⟩
      obtain ⟨o', hlook⟩ := (hr.settles Z id hZ).2.1
      exact hk.eq_of_open (hM.entry id o ho).1 (hL.entry id o' hlook).1
  · exact (hk.record d hd).imp_right fun hd => ⟨hd.1.concat x, hd.2⟩
  · rcases hmem _ hd with hd | ⟨o, -, he⟩
    · exact (hk.orphan d hd).concat x
    · cases he
  · by_cases hY : Y = X
    · subst hY
      refine ⟨s', AList.lookup_insert _, ?_⟩
      rw [hgrown]
      rcases hmem _ ho with ho | ⟨o', ho', he⟩
      · obtain ⟨t, ht, hot⟩ := hk.handle Y o ho
        obtain rfl : s = t := Option.some.inj (hX.symm.trans ht)
        exact List.mem_append_left _ hot
      · cases he
        exact List.mem_append_right _ ho'
    · rcases hmem _ ho with ho | ⟨o', -, he⟩
      · obtain ⟨t, ht, hot⟩ := hk.handle Y o ho
        exact ⟨t, (AList.lookup_insert_ne hY).trans ht, hot⟩
      · cases he
        exact absurd rfl hY
  · have hlift : (∃ k < E.generated, id = uuid k) → ∃ k < g, id = uuid k := by
      rintro ⟨k, hlt, he⟩
      exact ⟨k, hlt.trans_le hg, he⟩
    rcases List.mem_append.mp hy with hy | hy
    · exact hlift (hk.known y hy Y id hid)
    · rw [List.mem_singleton.mp hy] at hid
      rcases hid with hid | hid
      · exact ⟨E.generated, (hr.hands Y id hid).2.2, (hr.hands Y id hid).2.1⟩
      · obtain ⟨o, hlook⟩ := (hr.settles Y id hid).2.1
        exact hlift (hk.generated_of_open (hL.entry id o hlook).1)
  · rcases List.mem_append.mp hy with hy | hy <;> rcases List.mem_append.mp hz with hz | hz
    · exact hk.once y hy z hz Y Z id hY hZ
    · obtain ⟨k, hlt, he⟩ := hk.known y hy Y id (Or.inl hY)
      exact absurd he (hhands Z id (List.mem_singleton.mp hz ▸ hZ) k hlt)
    · obtain ⟨k, hlt, he⟩ := hk.known z hz Z id (Or.inl hZ)
      exact absurd he (hhands Y id (List.mem_singleton.mp hy ▸ hY) k hlt)
    · rw [List.mem_singleton.mp hy] at hY
      rw [List.mem_singleton.mp hz] at hZ
      exact (hr.hands Y id hY).1.trans (hr.hands Z id hZ).1.symm

omit huuid in
/-- **A restart.** The index of a new book is empty. -/
theorem restart (instruments : List (String × ℚ)) (keepsQueue : Bool)
    {books : AList fun _ : String => OrderBook} (hbooks : ∀ X s, books.lookup X = some s →
      ∃ price, Refines s ((Ledger.empty X price).recover E.store.getAll)) :
    Kept uuid toFloat store { E with
      books := books
      queue := if keepsQueue then E.queue.filterMap fun m => (E.read m).map .orphan else [] }
      (h ++ [(.restart instruments keepsQueue, none)]) := by
  refine hk.silent rfl (fun _ _ => id) (fun _ _ => id) (fun X s hs => ?_) hk.record
    (fun d hd => ?_) fun X o ho => ?_
  · obtain ⟨price, hL⟩ := hbooks X s hs
    refine ⟨_, hL, fun o ho => ?_, fun id o ho => ?_⟩
    · rw [Ledger.recover_orderQueue] at ho
      exact absurd ho List.not_mem_nil
    · rw [(Ledger.recovered_new X price _).orders] at ho
      exact absurd ho (by simp)
  · dsimp only at hd
    split at hd
    · obtain ⟨m, hm, he⟩ := List.mem_filterMap.mp hd
      obtain ⟨y, hy, hsub⟩ := hk.read hm
      rw [hy] at he
      cases he
      exact hsub
    · exact absurd hd (by simp)
  · dsimp only at ho
    split at ho
    · obtain ⟨m, -, he⟩ := List.mem_filterMap.mp ho
      obtain ⟨y, -, he⟩ := Option.map_eq_some_iff.mp he
      cases he
    · exact absurd ho (by simp)

omit huuid in
/-- **A step of the repository.** -/
theorem persist {m : Message} {rest : List Message} {y : OrderData} (hq : E.queue = m :: rest)
    (hy : E.read m = some y) :
    Kept uuid toFloat store { E with queue := rest, store := E.store.processMessage y }
      (h ++ [(.persist, none)]) := by
  have hsub : ∀ m' ∈ rest, m' ∈ E.queue := fun m' hm' => by simp [hq, hm']
  obtain ⟨y', hy', hsent⟩ := hk.read (m := m) (by simp [hq])
  obtain rfl : y = y' := Option.some.inj (hy.symm.trans hy')
  refine hk.silent rfl (fun _ _ => id) (fun _ _ => id) (fun X s hs => ?_) (fun d hd => ?_)
    (fun d hd => hk.orphan d (hsub _ hd)) fun X o ho => hk.handle X o (hsub _ ho)
  · obtain ⟨L, hL⟩ := hk.book X s hs
    exact ⟨L, hL.concat id fun _ _ _ _ => id⟩
  · rcases OrderStore.eq_of_mem_processMessage hd with ⟨rfl, hcan, hful⟩ | hd
    · have hqty : y.currentQty ≠ 0 := by simpa [OrderData.isFullfilled] using hful
      refine Or.inr ⟨hsent.resolve_right ?_, hcan, hqty⟩
      rw [hcan]
      exact not_or.mpr ⟨Bool.false_ne_true, hqty⟩
    · exact hk.record d hd

/-- **Every event** leaves the state and the history in agreement. -/
theorem does {e : Event} {E' : Exchange} {reply : Option Reply}
    (hdoes : Does uuid toFloat E e E' reply) : Kept uuid toFloat store E' (h ++ [(e, reply)]) := by
  cases hdoes with
  | nothing reply hrestart hhands hsettles => exact hk.quiet hrestart hhands hsettles
  | request X s s' r g reply hX hg hr =>
    obtain ⟨L, hL⟩ := hk.book X s hX
    obtain ⟨h', hreplied⟩ := hr L hL.refines
    exact hk.setBook huuid hX hL hreplied hg h'
  | restart instruments keepsQueue books he hbooks =>
    subst he
    exact hk.restart instruments keepsQueue hbooks
  | persist m rest d he hq hd =>
    subst he
    exact hk.persist hq hd

end Kept

end Server

end LimitOrderBook
