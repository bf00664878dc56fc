/-
# `BedrockKV.AsyncErrors` — what becomes of a log write that fails

A write whose completion leaves bytes out has to reach somebody: `Put` or
`Delete` returns an error for it before a durability point is reached with
`Ok` (`Visible`).  The code sees a failure only as a negative result, so a
short count passes for a success; a failure reaped by `WriteEntry` under
`kSyncNever` stays in `wal_ring_error_`, where nothing looks; and one reaped by
the collector ends in the background thread.

    flush_owed          a drain that sees no failure leaves nothing unreported
    Ends                what a call that may see failures leaves to its caller
    returning_told      returning the error settles the debt
    run_visible         runs in which none of the three happens

`Owed` says that everything unreported is a failure that the current call has
still to return, `Told` that nothing is unreported.
-/
import BedrockKV.AsyncFiles

namespace BedrockKV

open List Log Extents

/-! ## Visible failures -/

/-- The results of incomplete writes that no `Put` or `Delete` has returned an
error for, after one more event.  An error about a log write covers the
failures reaped before it. -/
def Mark.leaves (open_ : List Int) : Mark → List Int
  | .completed (.write _ buf _) res => if res.toNat < buf.length then open_ ++ [res] else open_
  | .returned (.writeFailed _) => open_.filter fun res => decide (0 ≤ res)
  | _ => open_

def unreported (h : List Mark) : List Int := h.foldl Mark.leaves []

/-- At every durability point reached with `Ok`, nothing was unreported. -/
def Visible (h : List Mark) : Prop := ∀ h₁ h₂, h = h₁ ++ .durable :: h₂ → unreported h₁ = []

theorem unreported_concat (h : List Mark) (m : Mark) :
    unreported (h ++ [m]) = m.leaves (unreported h) := by
  rw [unreported, foldl_append]
  rfl

theorem Visible.concat {h : List Mark} {m : Mark} (hv : Visible h)
    (hm : m = .durable → unreported h = []) : Visible (h ++ [m]) := by
  intro h₁ h₂ heq
  rcases eq_nil_or_concat h₂ with rfl | ⟨h₃, m', rfl⟩
  · obtain ⟨rfl, hlast⟩ := append_inj' heq rfl
    exact hm (singleton_inj.mp hlast)
  · have heq' : h ++ [m] = (h₁ ++ .durable :: h₃) ++ [m'] := by simpa using heq
    obtain ⟨rfl, -⟩ := append_inj' heq' rfl
    exact hv h₁ h₃ rfl

theorem visible_nil : Visible [] := by
  intro h₁ h₂ heq
  simp at heq

/-! ## What the kernel may do -/

def Completion.isShort : Completion → Bool
  | .short _ => true
  | _ => false

namespace Enter

variable (W : Nat → Prop) (k : Enter)

/-- No request of `W` ends with a short count. -/
def NoShort : Prop := ∀ a ∈ k.arrivals, W a.1 → a.2.isShort = false

/-- Every request of `W` that is listed ends in full. -/
def Clean : Prop := ∀ a ∈ k.arrivals, W a.1 → a.2 = .whole

variable {W k}

theorem Clean.noShort (h : k.Clean W) : k.NoShort W := by
  intro a ha hw
  rw [h a ha hw]
  rfl

instance [DecidablePred W] : Decidable (k.NoShort W) :=
  inferInstanceAs (Decidable (∀ a ∈ k.arrivals, W a.1 → a.2.isShort = false))

instance [DecidablePred W] : Decidable (k.Clean W) :=
  inferInstanceAs (Decidable (∀ a ∈ k.arrivals, W a.1 → a.2 = .whole))

end Enter

namespace AsyncDB

variable {s s' : AsyncDB} {W : Nat → Prop} {C : Prop} {k : Schedule}

def Told (s : AsyncDB) : Prop := unreported s.history = [] ∧ Visible s.history

def Owed (s : AsyncDB) : Prop := (∀ r ∈ unreported s.history, r < 0) ∧ Visible s.history

theorem Told.owed (h : s.Told) : s.Owed := ⟨by simp [h.1], h.2⟩

/-- Nothing is waiting to be reaped, and the pending log writes are those of `W`
and as long as the kernel was told. -/
structure Sound (W : Nat → Prop) (s : AsyncDB) : Prop where
  counted : s.ring.Counted
  reaped : s.ring.cq = []
  writes : ∀ e ∈ s.ring.pending, ∀ log buf offset, e.request = .write log buf offset →
    W e.userData ∧ buf.length < 2 ^ 32

theorem Told.congr (h : s.Told) (hhist : s'.history = s.history) : s'.Told := by
  rwa [Told, hhist]

theorem Sound.congr (h : s.Sound W) (hring : s'.ring = s.ring) : s'.Sound W :=
  ⟨hring ▸ h.counted, hring ▸ h.reaped, hring ▸ h.writes⟩

theorem Sound.mono {V : Nat → Prop} (h : s.Sound W) (hW : ∀ t, W t → V t) : s.Sound V :=
  ⟨h.counted, h.reaped, fun e he log buf offset hq =>
    ⟨hW _ (h.writes e he log buf offset hq).1, (h.writes e he log buf offset hq).2⟩⟩

theorem Sound.none (h : s.Sound W) (hnil : s.ring.pending = []) : s.Sound fun _ => False :=
  ⟨h.counted, h.reaped, fun _ he => absurd (hnil ▸ he) not_mem_nil⟩

theorem done_owed (l l' : List Sqe) {e : Sqe} {c : Completion} (ho : s.Owed)
    (hfull : ∀ log buf offset, e.request = .write log buf offset →
      buf.length < 2 ^ 32 ∧ c.isShort = false) :
    (s.done (l ++ l') e (c.res e.request.len)).Owed ∧
      (0 ≤ c.res e.request.len → unreported (s.done (l ++ l') e (c.res e.request.len)).history =
        unreported s.history) := by
  have hun : unreported (s.done (l ++ l') e (c.res e.request.len)).history =
      (Mark.completed e.request (c.res e.request.len)).leaves (unreported s.history) :=
    unreported_concat _ _
  have hvis : Visible (s.done (l ++ l') e (c.res e.request.len)).history := ho.2.concat (by simp)
  rw [Owed, hun]
  cases hq : e.request with
  | fsyncLog log | fsyncVlog vlog => exact ⟨⟨ho.1, hq ▸ hvis⟩, fun _ => rfl⟩
  | write log buf offset =>
    obtain ⟨hlen, hshort⟩ := hfull log buf offset hq
    rw [hq] at hvis
    cases c with
    | short n => cases hshort
    | whole =>
      have hres : ¬ (Completion.res (Request.write log buf offset).len .whole).toNat <
          buf.length := by
        simp only [Completion.res, Request.len, Nat.mod_eq_of_lt hlen, Int.toNat_natCast]
        omega
      have hsame : (Mark.completed (.write log buf offset) (Completion.res
          (Request.write log buf offset).len .whole)).leaves (unreported s.history) =
          unreported s.history := if_neg hres
      rw [hsame]
      exact ⟨⟨ho.1, hvis⟩, fun _ => rfl⟩
    | failed errno =>
      have hneg : Completion.res (Request.write log buf offset).len (.failed errno) < 0 := by
        simp only [Completion.res]
        omega
      refine ⟨⟨?_, hvis⟩, fun hpos => absurd hneg (Int.not_lt.mpr hpos)⟩
      intro r hr
      simp only [Mark.leaves] at hr
      split at hr
      · rcases mem_append.mp hr with hr | hr
        · exact ho.1 r hr
        · rwa [mem_singleton.mp hr]
      · exact ho.1 r hr

/-- What ends during an enter, and what it leaves on the completion queue. -/
theorem Completes.owed {arrivals : List (Nat × Completion)} {ds : List (Sqe × Int)}
    (h : Completes arrivals s ds s') (ho : s.Owed) (hc : s.ring.Counted)
    (hw : ∀ e ∈ s.ring.pending, ∀ log buf offset, e.request = .write log buf offset →
      W e.userData ∧ buf.length < 2 ^ 32)
    (hshort : ∀ a ∈ arrivals, W a.1 → a.2.isShort = false) :
    s'.Owed ∧ s'.ring.Counted ∧ s'.ring.pending.Sublist s.ring.pending ∧
      s'.ring.cq = s.ring.cq ++ ds.map (fun d => ⟨d.1.userData, d.2⟩) ∧
      ((∀ d ∈ ds, 0 ≤ d.2) → unreported s'.history = unreported s.history) ∧
      ((∀ a ∈ arrivals, W a.1 → a.2 = .whole) → unreported s'.history = unreported s.history) := by
  induction h with
  | refl s => exact ⟨ho, hc, List.Sublist.refl _, by simp, fun _ => rfl, fun _ => rfl⟩
  | @step s s' l l' e c ds hl hc' _ ih =>
    have hmem : e ∈ s.ring.pending := by
      rw [Ring.pending, hl]
      simp
    have hfull : ∀ log buf offset, e.request = .write log buf offset →
        buf.length < 2 ^ 32 ∧ c.isShort = false := by
      intro log buf offset hq
      obtain ⟨hW, hlen⟩ := hw e hmem log buf offset hq
      refine ⟨hlen, ?_⟩
      rcases hc' with harr | rfl
      · exact hshort _ harr hW
      · rfl
    obtain ⟨ho', hun⟩ := done_owed l l' ho hfull
    have hsub : (s.done (l ++ l') e (c.res e.request.len)).ring.pending.Sublist s.ring.pending :=
      pending_done hl
    obtain ⟨ho'', hcount, hsub', hcq, hnonneg, hclean⟩ := ih ho' (counted_done hl hc)
      fun x hx => hw x (hsub.subset hx)
    refine ⟨ho'', hcount, hsub'.trans hsub, ?_, fun hd => ?_, fun ha => ?_⟩
    · rw [hcq]
      simp [done]
    · obtain ⟨he, hds⟩ := forall_mem_cons.mp hd
      exact (hnonneg hds).trans (hun he)
    · refine (hclean ha).trans ?_
      cases hq : e.request with
      | fsyncLog log | fsyncVlog vlog => exact unreported_concat _ _ |>.trans (by rw [hq]; rfl)
      | write log buf offset =>
        have hwhole : c = .whole := by
          rcases hc' with harr | rfl
          · exact ha _ harr (hw e hmem log buf offset hq).1
          · rfl
        rw [← hq]
        refine hun ?_
        rw [hwhole]
        exact Int.natCast_nonneg _

/-! ## Calls that may see a failure -/

theorem firstFailure_eq_none {cq : List Cqe} : firstFailure cq = none ↔ ∀ c ∈ cq, 0 ≤ c.res := by
  simp [firstFailure]

/-- What a call leaves to its caller: failures are unreported only behind an
error about a log write, and if `C` (nothing failed) not at all. -/
structure Ends (W : Nat → Prop) (C : Prop) (r : Option WalError) (s : AsyncDB) : Prop where
  sound : s.Sound W
  owed : s.Owed
  told : (C ∨ ∀ errno, r ≠ some (.writeFailed errno)) → s.Told

theorem Told.ends (h : s.Told) (hs : s.Sound W) (r : Option WalError) : Ends W C r s :=
  ⟨hs, h.owed, fun _ => h⟩

theorem Told.ends_congr {r : Option WalError} (h : s.Told) (hs : s.Sound W)
    (hring : s'.ring = s.ring) (hhist : s'.history = s.history) : Ends W C r s' :=
  (h.congr hhist).ends (hs.congr hring) r

variable {e : Enter} {key value : Bytes} {type : ValueType}

theorem flush_owed {waitAll : Bool} (h : s.flush waitAll e = .ok s') (hs : s.Sound W) (ht : s.Told)
    (hshort : e.NoShort W) (hclean : C → e.Clean W) :
    s'.reap.Sound W ∧ s'.Owed ∧ (C ∨ firstFailure s'.ring.cq = none → s'.Told) := by
  rcases flush_ok h with ⟨rfl, -⟩ | ⟨ds, hds, -⟩
  · exact ⟨⟨hs.counted.reaped, rfl, hs.writes⟩, ht.owed, fun _ => ht⟩
  · obtain ⟨ho, hc, hsub, hcq, hnonneg, hwhole⟩ := hds.owed (W := W) ht.owed hs.counted.submitted
      (by simpa using hs.writes) hshort
    have hcq' : s'.ring.cq = ds.map fun d => ⟨d.1.userData, d.2⟩ := by
      rw [hcq]
      exact congrArg (· ++ _) hs.reaped
    refine ⟨⟨hc.reaped, rfl, fun x hx => hs.writes x ?_⟩, ho, fun hno => ⟨?_, ho.2⟩⟩
    · exact (s.ring.pending_submitted ▸ hsub).subset hx
    · rcases hno with hcl | hnone
      · exact (hwhole (hclean hcl)).trans ht.1
      · refine (hnonneg fun d hd => ?_).trans ht.1
        exact firstFailure_eq_none.mp hnone ⟨d.1.userData, d.2⟩ (hcq' ▸ mem_map_of_mem hd)

theorem drainWalRing_ends (hs : s.Sound W) (ht : s.Told) (hshort : e.NoShort W)
    (hclean : C → e.Clean W) : Ends W C (s.drainWalRing e).1 (s.drainWalRing e).2 := by
  unfold drainWalRing
  split
  · exact ht.ends hs none
  · split
    · exact ht.ends hs _
    · next s' hs' =>
      obtain ⟨hsound, ho, htold⟩ := flush_owed hs' hs ht hshort hclean
      refine ⟨⟨hsound.counted, rfl, hsound.writes⟩, ho,
        fun hno => htold (hno.imp_right fun h => ?_)⟩
      cases hf : firstFailure s'.ring.cq with
      | none => rfl
      | some errno => exact absurd (congrArg (Option.map WalError.writeFailed) hf) (h errno)

theorem queueFsync_told {q : Request} (hq : ∀ log buf offset, q ≠ .write log buf offset)
    (h : s.queueFsync q = some s') (hs : s.Sound W) (ht : s.Told) : s'.Sound W ∧ s'.Told := by
  obtain ⟨ring, hring, rfl⟩ := Option.map_eq_some_iff.mp h
  refine ⟨⟨hs.counted.queue hring, (Ring.cq_queue hring).trans hs.reaped, ?_⟩, ht⟩
  intro x hx log buf offset hxq
  rw [show ({ s with ring := ring, walToken := s.walToken + 1 } : AsyncDB).ring = ring from rfl,
    Ring.pending_queue hring] at hx
  rcases mem_append.mp hx with hx | hx
  · exact hs.writes x hx log buf offset hxq
  · rw [mem_singleton.mp hx] at hxq
    exact absurd hxq (hq log buf offset)

/-- Where no log write is pending, waiting for fsyncs cannot see one fail. -/
theorem awaitFsyncs_told (hs : s.Sound fun _ => False) (ht : s.Told) :
    (s.awaitFsyncs e).2.Sound (fun _ => False) ∧ (s.awaitFsyncs e).2.Told := by
  unfold awaitFsyncs
  split
  · exact ⟨hs, ht⟩
  · next s' hs' =>
    obtain ⟨hsound, -, htold⟩ := flush_owed (C := True) hs' hs ht (fun _ _ h => h.elim)
      fun _ _ _ h => h.elim
    exact ⟨hsound, htold (.inl trivial)⟩

theorem syncViaRing_told (hs : s.Sound fun _ => False) (ht : s.Told) :
    (s.syncViaRing e).2.Sound (fun _ => False) ∧ (s.syncViaRing e).2.Told := by
  unfold syncViaRing
  split
  · exact ⟨⟨hs.counted, hs.reaped, hs.writes⟩, ht⟩
  · next s₁ hs₁ =>
    obtain ⟨hsound₁, htold₁⟩ := queueFsync_told (by simp) hs₁ hs ht
    split
    · split
      · exact ⟨⟨hsound₁.counted, hsound₁.reaped, hsound₁.writes⟩, htold₁⟩
      · next s₂ hs₂ =>
        obtain ⟨hsound₂, htold₂⟩ := queueFsync_told (by simp) hs₂ hsound₁ htold₁
        exact awaitFsyncs_told hsound₂ htold₂
    · exact awaitFsyncs_told hsound₁ htold₁

theorem Told.durable (ht : s.Told) : (s.note .durable).Told := by
  refine ⟨?_, ht.2.concat fun _ => ht.1⟩
  rw [note, unreported_concat]
  exact ht.1

theorem forceDurability_ends (hs : s.Sound W) (ht : s.Told) (hshort : k.drain.NoShort W)
    (hclean : C → k.drain.Clean W) : Ends W C (s.forceDurability k).1 (s.forceDurability k).2 := by
  have hdrain := drainWalRing_ends hs ht hshort hclean
  have hnil := drainWalRing_pending (s := s) (k := k.drain) hs.counted
  unfold forceDurability
  cases hd : s.drainWalRing k.drain with
  | mk r s₁ =>
    rw [hd] at hdrain hnil
    cases r with
    | some e => exact hdrain
    | none =>
      have ht₁ : s₁.Told := hdrain.told (.inr (by simp))
      obtain ⟨hsound, htold⟩ := syncViaRing_told (e := k.pair) (hdrain.sound.none (hnil rfl)) ht₁
      dsimp only
      cases hv : s₁.syncViaRing k.pair with
      | mk r' s₂ =>
        rw [hv] at hsound htold
        cases r' with
        | some e => exact htold.ends (hsound.mono fun _ h => h.elim) _
        | none =>
          have hsound' := hsound.mono (V := W) fun _ h => h.elim
          exact htold.durable.ends_congr (hsound'.congr rfl) rfl rfl

/-- `WriteEntry` from the submission on: a failure that it reaps is returned,
unless the sync mode is `kSyncNever`. -/
theorem submitRecord_ends (hs : s.Sound W) (ht : s.Told) (hsubmit : k.submit.NoShort W)
    (hnever : s.db.opt.syncMode = .kSyncNever → k.submit.Clean W) (hdrain : k.drain.NoShort W)
    (hclean : C → k.submit.Clean W ∧ k.drain.Clean W) :
    Ends W C (s.submitRecord k).1 (s.submitRecord k).2 := by
  unfold submitRecord
  split
  · exact ht.ends hs _
  · next s' hs' =>
    obtain ⟨hsound, ho, htold⟩ := flush_owed (C := k.submit.Clean W) hs' hs ht hsubmit id
    have hmode : s'.db.opt.syncMode = s.db.opt.syncMode := by
      rw [DB.opt, (flush_stutters hs').core]
    have hsound' : s'.stash.Sound W := ⟨hsound.counted, rfl, hsound.writes⟩
    unfold maybeSync
    split
    · next hm =>
      have hm' : s.db.opt.syncMode = .kSyncNever := hmode.symm.trans hm
      exact Told.ends_congr (s := s'.stash) (htold (.inl (hnever hm'))) hsound' rfl rfl
    · split
      · next errno herr =>
        refine ⟨⟨hsound'.counted, rfl, hsound'.writes⟩, ho, fun hno => ?_⟩
        rcases hno with hcl | hne
        · exact htold (.inl (hclean hcl).1)
        · exact absurd rfl (hne errno)
      · next herr =>
        have hnone : firstFailure s'.ring.cq = none := (Option.or_eq_none_iff.mp herr).2
        have ht' : s'.stash.Told := htold (.inr hnone)
        split
        · exact forceDurability_ends hsound' ht' hdrain fun hcl => (hclean hcl).2
        · exact ht'.ends hsound' none

/-- The record that a call of `WriteEntry` encodes is shorter than `2 ^ 32`. -/
def RecordFits (s : AsyncDB) (type : ValueType) (key value : Bytes) (offset : Nat) : Prop :=
  (encodeRecord (encodePayload (s.db.record type key value)) offset).length < 2 ^ 32

theorem writeEntry_ends (hs : s.Sound W) (ht : s.Told) (hnew : W (s.walToken + 1))
    (hfits : s.RecordFits type key value s.walSize) (hsubmit : k.submit.NoShort W)
    (hnever : s.db.opt.syncMode = .kSyncNever → k.submit.Clean W) (hdrain : k.drain.NoShort W)
    (hclean : C → k.submit.Clean W ∧ k.drain.Clean W) :
    Ends W C (s.writeEntry type key value k).1 (s.writeEntry type key value k).2 := by
  unfold writeEntry
  cases hq : s.queueRecord type key value with
  | none => exact ht.ends_congr hs rfl rfl
  | some s₁ =>
    obtain ⟨ring, hring, hs₁⟩ := Option.map_eq_some_iff.mp hq
    have hsound₁ : s₁.Sound W := by
      rw [← hs₁]
      refine ⟨hs.counted.queue hring, (Ring.cq_queue hring).trans hs.reaped, ?_⟩
      intro x hx log buf offset hxq
      rcases mem_append.mp (Ring.pending_queue hring ▸ hx : x ∈ s.ring.pending ++ _) with
        hx | hx
      · exact hs.writes x hx log buf offset hxq
      · rw [mem_singleton.mp hx] at hxq ⊢
        obtain ⟨-, rfl, -⟩ := Request.write.inj hxq
        exact ⟨hnew, hfits⟩
    have hends := submitRecord_ends (C := C) hsound₁
      (ht.congr (by rw [← hs₁])) hsubmit (by rw [← hs₁]; exact hnever) hdrain hclean
    dsimp only
    cases hr : s₁.submitRecord k with
    | mk r s₂ =>
      rw [hr] at hends
      cases r with
      | some e => exact hends
      | none => exact ⟨hends.sound.congr rfl, hends.owed, hends.told⟩

theorem rotateForFlush_ends (hs : s.Sound W) (ht : s.Told) (hshort : e.NoShort W)
    (hclean : C → e.Clean W) : Ends W C (s.rotateForFlush e).1 (s.rotateForFlush e).2 := by
  have hdrain := drainWalRing_ends hs ht hshort hclean
  unfold rotateForFlush
  cases hd : s.drainWalRing e with
  | mk r s₁ =>
    rw [hd] at hdrain
    cases r with
    | some x => exact hdrain
    | none =>
      have ht₁ : s₁.Told := hdrain.told (.inr (by simp))
      exact ht₁.durable.ends_congr (hdrain.sound.congr rfl) rfl rfl

/-- **Returning the error settles the debt.** -/
theorem returning_told {r : Option WalError × AsyncDB} (h : Ends W False r.1 r.2) :
    (returning r).Sound W ∧ (returning r).Told := by
  obtain ⟨r, t⟩ := r
  cases r with
  | none => exact ⟨h.sound, h.told (.inr (by simp))⟩
  | some e =>
    refine ⟨h.sound.congr rfl, ?_, h.owed.2.concat (by simp)⟩
    show unreported (t.history ++ [.returned e]) = []
    rw [unreported_concat]
    have hother (hne : ∀ errno, e ≠ .writeFailed errno) : unreported t.history = [] :=
      (h.told (.inr fun errno he => hne errno (Option.some.inj he))).1
    cases e with
    | writeFailed errno =>
      refine filter_eq_nil_iff.mpr fun x hx => ?_
      have := h.owed.1 x hx
      simp only [decide_eq_true_eq]
      omega
    | queueFull | fsyncQueueFull | submitFailed errno | waitFailed errno | fsyncFailed errno =>
      exact hother (by simp)

/-! ## Every run -/

theorem Completes.walToken {arrivals : List (Nat × Completion)} {ds : List (Sqe × Int)}
    (h : Completes arrivals s ds s') : s'.walToken = s.walToken := by
  induction h with
  | refl => rfl
  | step _ _ _ ih => exact ih

theorem walToken_drainWalRing (s : AsyncDB) (e : Enter) :
    (s.drainWalRing e).2.walToken = s.walToken := by
  unfold drainWalRing
  split
  · rfl
  · split
    · rfl
    · next s' hs' =>
      show s'.walToken = s.walToken
      rcases flush_ok hs' with ⟨rfl, -⟩ | ⟨ds, hds, -⟩
      · rfl
      · exact hds.walToken

theorem rotateForFlush_frame (h : s.rotateForFlush e = (none, s')) :
    s'.walToken = s.walToken ∧ s'.walSize = 0 ∧ s'.db.opt = s.db.opt ∧
      ∀ type key value, s'.db.record type key value = s.db.record type key value := by
  have hstut := drainWalRing_stutters s e
  have htok := walToken_drainWalRing s e
  unfold rotateForFlush at h
  cases hd : s.drainWalRing e with
  | mk r s₁ =>
    rw [hd] at h hstut htok
    cases r with
    | some x => cases h
    | none =>
      cases h
      refine ⟨htok, rfl, (congrArg Lsm.opt hstut.core : s₁.db.core.opt = s.db.core.opt),
        fun type key value => ?_⟩
      exact (show s₁.db.rotateForFlush.record type key value = s₁.db.record type key value from
        rfl).trans (DB.record_congr hstut.core hstut.vlogCurrent hstut.vlogDir type key value)

/-- The tokens of the log writes that can end during the next operation. -/
def Writing (s : AsyncDB) (t : Nat) : Prop :=
  t = s.walToken + 1 ∨ ∃ e ∈ s.ring.pending, e.request.extent.isSome ∧ e.userData = t

/-- In a `Put` or `Delete`: no short count, no record of `2 ^ 32` bytes, and
under `kSyncNever` no failure among the completions that `WriteEntry` reaps. -/
def UserOk (s : AsyncDB) (type : ValueType) (key value : Bytes) (k : Schedule) : Prop :=
  s.RecordFits type key value (if s.db.core.full then 0 else s.walSize) ∧
  (s.db.core.full = true → k.rotate.NoShort s.Writing) ∧
  k.submit.NoShort s.Writing ∧ k.drain.NoShort s.Writing ∧
  (s.db.opt.syncMode = .kSyncNever → k.submit.Clean s.Writing)

/-- The entry that the collector rewrites next. -/
def nextLive (s : AsyncDB) : Option GcItem :=
  match s.db.gc with
  | .scanning _ _ (x :: _) _ false => if s.db.isLive x then some x else none
  | _ => none

/-- No log write ends short, and one that fails does so where a `Put` or `Delete`
returns it: not in the collector, and not in `WriteEntry` under `kSyncNever`. -/
def Surfaces (s : AsyncDB) : DB.Op × Schedule → Prop
  | (.put key value, k) => s.UserOk .value key value k
  | (.delete key, k) => s.UserOk .deletion key [] k
  | (.rotate, k) => k.rotate.NoShort s.Writing
  | (.gcEntry, k) =>
    ∀ x ∈ s.nextLive, s.RecordFits .value x.entry.key x.entry.value s.walSize ∧
      k.submit.Clean s.Writing ∧ k.drain.Clean s.Writing
  | (.gcRetire, k) => k.drain.Clean s.Writing
  | _ => True

instance (s : AsyncDB) : DecidablePred s.Writing := fun t =>
  inferInstanceAs (Decidable (t = s.walToken + 1 ∨
    ∃ e ∈ s.ring.pending, e.request.extent.isSome ∧ e.userData = t))

instance (s : AsyncDB) (type : ValueType) (key value : Bytes) (offset : Nat) :
    Decidable (s.RecordFits type key value offset) :=
  inferInstanceAs (Decidable (_ < _))

instance (s : AsyncDB) (type : ValueType) (key value : Bytes) (k : Schedule) :
    Decidable (s.UserOk type key value k) :=
  inferInstanceAs (Decidable (_ ∧ _ ∧ _ ∧ _ ∧ _))

instance (s : AsyncDB) : DecidablePred s.Surfaces
  | (.put key value, k) => inferInstanceAs (Decidable (s.UserOk .value key value k))
  | (.delete key, k) => inferInstanceAs (Decidable (s.UserOk .deletion key [] k))
  | (.rotate, k) => inferInstanceAs (Decidable (k.rotate.NoShort s.Writing))
  | (.gcEntry, k) => inferInstanceAs (Decidable
      (∀ x ∈ s.nextLive, s.RecordFits .value x.entry.key x.entry.value s.walSize ∧
        k.submit.Clean s.Writing ∧ k.drain.Clean s.Writing))
  | (.gcRetire, k) => inferInstanceAs (Decidable (k.drain.Clean s.Writing))
  | (.flushBuild, _) | (.flushInstall, _) | (.flushDone, _) | (.pick, _) | (.captureFloor, _)
  | (.sealOutput, _) | (.installCompaction, _) | (.getSnapshot, _) | (.releaseSnapshot _, _)
  | (.gcCheck, _) | (.gcStart, _) | (.gcDrain, _) | (.gcUnlink, _) => .isTrue trivial

/-- Between operations nothing is unreported. -/
structure Inv (s : AsyncDB) : Prop where
  sound : s.Sound fun _ => True
  told : s.Told

theorem Inv.writing (h : s.Inv) : s.Sound s.Writing := by
  refine ⟨h.sound.counted, h.sound.reaped, fun e he log buf offset hq => ⟨.inr ⟨e, he, ?_, rfl⟩,
    (h.sound.writes e he log buf offset hq).2⟩⟩
  rw [hq]
  rfl

theorem attach_inv (db : DB) : (attach db).Inv :=
  ⟨⟨⟨rfl, rfl⟩, rfl, nofun⟩, rfl, visible_nil⟩

theorem userWrite_ends (h : s.Inv) (hok : s.UserOk type key value k) :
    Ends s.Writing False (s.userWrite type key value k).1 (s.userWrite type key value k).2 := by
  obtain ⟨hfits, hrotate, hsubmit, hdrain, hnever⟩ := hok
  unfold userWrite
  split
  · next hfull =>
    rw [if_pos hfull] at hfits
    have hends := rotateForFlush_ends (C := False) h.writing h.told (hrotate hfull) False.elim
    cases hr : s.rotateForFlush k.rotate with
    | mk r s₁ =>
      rw [hr] at hends
      cases r with
      | some e => exact hends
      | none =>
        obtain ⟨htok, hsize, hopt, hrec⟩ := rotateForFlush_frame hr
        refine writeEntry_ends hends.sound (hends.told (.inr (by simp))) ?_ ?_ hsubmit ?_
          hdrain False.elim
        · exact .inl (by rw [htok])
        · rw [RecordFits, hrec, hsize]
          exact hfits
        · rw [hopt]
          exact hnever
  · next hfull =>
    rw [if_neg hfull] at hfits
    exact writeEntry_ends h.writing h.told (.inl rfl) hfits hsubmit hnever hdrain False.elim

theorem write_inv (h : s.Inv) (hok : s.UserOk type key value k)
    (hs : s.write type key value k = some s') : s'.Inv := by
  unfold write at hs
  split at hs
  · cases hs
  · cases hs
    obtain ⟨hsound, htold⟩ := returning_told (userWrite_ends h hok)
    exact ⟨hsound.mono fun _ _ => trivial, htold⟩

theorem rotate_inv (h : s.Inv) (hok : k.rotate.NoShort s.Writing) (hs : s.rotate k = some s') :
    s'.Inv := by
  unfold rotate at hs
  split at hs
  · cases hs
  · cases hs
    obtain ⟨hsound, htold⟩ := returning_told
      (rotateForFlush_ends (C := False) h.writing h.told hok False.elim)
    exact ⟨hsound.mono fun _ _ => trivial, htold⟩

theorem gcEntry_inv (h : s.Inv) (hok : s.Surfaces (.gcEntry, k)) (hs : s.gcEntry k = some s') :
    s'.Inv := by
  unfold gcEntry at hs
  split at hs
  · next fresh retired x todo rewritten hgc =>
    split at hs
    · next hlive =>
      obtain ⟨hfits, hsubmit, hdrain⟩ := hok x (by simp [nextLive, hgc, hlive])
      have hends := writeEntry_ends (C := True) h.writing h.told (.inl rfl) hfits
        hsubmit.noShort (fun _ => hsubmit) hdrain.noShort fun _ => ⟨hsubmit, hdrain⟩
      cases hw : s.writeEntry .value x.entry.key x.entry.value k with
      | mk r s₁ =>
        rw [hw] at hs hends
        have htold := hends.told (.inl trivial)
        have hsound := hends.sound.mono fun _ _ => trivial
        cases r <;> cases hs <;> exact ⟨hsound.congr rfl, htold.congr rfl⟩
    · cases hs
      exact ⟨h.sound.congr rfl, h.told.congr rfl⟩
  · cases hs

theorem gcRetire_inv (h : s.Inv) (hok : s.Surfaces (.gcRetire, k)) (hs : s.gcRetire k = some s') :
    s'.Inv := by
  have hdrain : k.drain.Clean s.Writing := hok
  unfold gcRetire at hs
  split at hs
  · split at hs
    · have hends := forceDurability_ends (C := True) h.writing h.told hdrain.noShort fun _ => hdrain
      cases hf : s.forceDurability k with
      | mk r s₁ =>
        rw [hf] at hs hends
        have htold := hends.told (.inl trivial)
        have hsound := hends.sound.mono fun _ _ => trivial
        cases r <;> cases hs <;> exact ⟨hsound.congr rfl, htold.congr rfl⟩
    · cases hs
      exact ⟨h.sound.congr rfl, h.told.congr rfl⟩
  · cases hs

/-- **One operation** leaves nothing unreported. -/
theorem Inv.step (h : s.Inv) {i : DB.Op × Schedule} (hok : s.Surfaces i)
    (hs : s.step i = some s') : s'.Inv := by
  obtain ⟨op, k⟩ := i
  -- the operations that do not touch the log
  have hother (op : DB.Op) (hs : ((s.db.step op).map fun db => { s with db := db }) = some s') :
      s'.Inv := by
    obtain ⟨db, -, rfl⟩ := Option.map_eq_some_iff.mp hs
    exact ⟨h.sound.congr rfl, h.told.congr rfl⟩
  cases op with
  | put key value | delete key => exact write_inv h hok hs
  | rotate => exact rotate_inv h hok hs
  | gcEntry => exact gcEntry_inv h hok hs
  | gcRetire => exact gcRetire_inv h hok hs
  | flushBuild => exact hother .flushBuild hs
  | flushInstall => exact hother .flushInstall hs
  | flushDone => exact hother .flushDone hs
  | pick => exact hother .pick hs
  | captureFloor => exact hother .captureFloor hs
  | sealOutput => exact hother .sealOutput hs
  | installCompaction => exact hother .installCompaction hs
  | getSnapshot => exact hother .getSnapshot hs
  | releaseSnapshot handle => exact hother (.releaseSnapshot handle) hs
  | gcCheck => exact hother .gcCheck hs
  | gcStart => exact hother .gcStart hs
  | gcDrain => exact hother .gcDrain hs
  | gcUnlink => exact hother .gcUnlink hs

/-- **Every lost log write has been returned as an error** by some `Put` or
`Delete` before a durability point is reached with `Ok`. -/
theorem run_visible {db : DB} {tr : List (DB.Op × Schedule)}
    (hmeets : Machine.Meets step Surfaces (attach db) tr)
    (hrun : Machine.run step (attach db) tr = some s) : Visible s.history := by
  have hinv : s.Inv := Machine.meets_invariant (fun _ t => t.Inv) (attach_inv db)
    (fun _ _ _ _ h hok hs => h.step hok hs) hmeets hrun
  exact hinv.told.2

/-- The kernel ends these requests while the record is submitted, and the rest in full. -/
def submitting (arrivals : List (Nat × Completion)) : Schedule :=
  ⟨.done [], .done arrivals, .done [], .done []⟩

/-- A write that fails, and one that succeeds. -/
def failedThenWhole : List (DB.Op × Schedule) :=
  [(.put [1] [10], submitting [(1, .failed 4)]), (.put [1] [11], submitting [])]

/-- At a run with a failure: it is returned, and the next `Put` is durable. -/
theorem run_visible_failedThenWhole : ∃ s,
    Machine.run step (attach (DB.fresh Lsm.smallOptions)) failedThenWhole = some s ∧
      (.returned (.writeFailed 5) ∈ s.history ∧ .durable ∈ s.history) ∧ Visible s.history := by
  have hobs : (Machine.run step (attach (DB.fresh Lsm.smallOptions)) failedThenWhole).map
      (fun s => decide (.returned (.writeFailed 5) ∈ s.history ∧ .durable ∈ s.history)) =
        some true := by
    decide +kernel
  obtain ⟨s, hs, hobs⟩ := Option.map_eq_some_iff.mp hobs
  exact ⟨s, hs, of_decide_eq_true hobs, run_visible (by decide +kernel) hs⟩

theorem exists_not_visible {db : DB} {tr : List (DB.Op × Schedule)}
    (hobs : (Machine.run step (attach db) tr).map (fun s => decide
      (s.history.getLast? = some .durable ∧ unreported s.history.dropLast ≠ [])) = some true) :
    ∃ s, Machine.run step (attach db) tr = some s ∧ ¬ Visible s.history := by
  obtain ⟨s, hs, hobs⟩ := Option.map_eq_some_iff.mp hobs
  obtain ⟨hlast, hun⟩ := of_decide_eq_true hobs
  refine ⟨s, hs, fun hv => hun (hv _ [] ?_)⟩
  obtain ⟨h, hh⟩ := getLast?_eq_some_iff.mp hlast
  simp [hh]

/-- **A short count passes for a success**: three bytes of the record are
written, and `Put` syncs and returns `Ok`. -/
theorem run_visible_short : ∃ s, Machine.run step (attach (DB.fresh Lsm.smallOptions))
    [(.put [1] [10], submitting [(1, .short 3)])] = some s ∧ ¬ Visible s.history :=
  exists_not_visible (by decide +kernel)

/-- **Under `kSyncNever` a failure is kept and not looked at**: the rotation that
follows drains an empty ring and goes on. -/
theorem run_visible_never : ∃ s, Machine.run step (attach (DB.fresh quietOptions))
    [(.put [1] [10], submitting [(1, .failed 4)]), (.rotate, submitting [])] = some s ∧
      ¬ Visible s.history :=
  exists_not_visible (by decide +kernel)

end AsyncDB

end BedrockKV
