/-
# `BedrockKV.Retention` — which versions a merge keeps

The merge loop of `RunCompaction` walks the versions of a user key newest
first.  `Kept` says what it keeps without the loop: every version above the
floor, and of the others the newest, unless that is a tombstone and the output
is the bottom level.  `mergeLoop_spec` is the loop invariant carried to the
end: no `Add` is refused, exactly the kept versions are written, and no user
key is in two output files.

`covers_of_kept` is what a reader needs from it, for every bound `S` that is
either at or above the floor or above every input.  `mergeTables_retains` says
the same of the output files as they are written, with no assumption on the
inputs but that no internal key occurs twice.
-/
import BedrockKV.Compaction

namespace BedrockKV

open List MultiVersion

/-- What the loop keeps of the versions `es`. -/
def Kept (floor : ReadSeq) (bottom : Bool) (es : List Entry) (e : Entry) : Prop :=
  floor < WithTop.some e.seq ∨
    (¬ floor < WithTop.some e.seq ∧
      (∀ x ∈ es, x.user = e.user → ¬ floor < WithTop.some x.seq → x.tag ≤ e.tag) ∧
      ¬ (e.type = .deletion ∧ bottom = true))

/-- Entries of the sealed outputs and of the open builder. -/
def MergeState.written (st : MergeState) : List Entry :=
  st.outputs.flatMap Table.entries ++ st.builder.entries

/-- The loop invariant, after the versions `pre`. -/
structure MergeInv (floor : ReadSeq) (bottom : Bool) (pre : List Entry) (st : MergeState) :
    Prop where
  written : ∀ x, x ∈ st.written ↔ x ∈ pre ∧ Kept floor bottom pre x
  top : ∀ x ∈ pre, ∃ u ∈ st.currentUser, x.user ≤ u
  attained : ∀ u ∈ st.currentUser, ∃ x ∈ pre, x.user = u
  seen : st.floorVersionSeen = true ↔
    ∃ x ∈ pre, x.user ∈ st.currentUser ∧ ¬ floor < WithTop.some x.seq
  outputs_lt : ∀ t ∈ st.outputs, ∀ x ∈ t.entries, ∀ u ∈ st.currentUser, x.user < u
  outputs_apart : st.outputs.Pairwise fun a b => a.largestUserKey < b.smallestUserKey
  builder_apart : ∀ t ∈ st.outputs, ∀ x ∈ t.entries, ∀ y ∈ st.builder.entries, x.user < y.user

/-! ## Sealing -/

section Seal

variable {st : MergeState} {x : Entry}

theorem mem_seal_written : x ∈ st.seal.written ↔ x ∈ st.written := by
  unfold MergeState.seal Builder.finish
  split
  · exact Iff.rfl
  · next t ht =>
    split at ht
    · cases ht
      simp [MergeState.written, Builder.new]
    · cases ht

theorem seal_builder (st : MergeState) : st.seal.builder.entries = [] := by
  unfold MergeState.seal Builder.finish
  split
  · next h =>
    split at h
    · cases h
    · next hnil => exact not_not.mp hnil
  · rfl

theorem mem_seal_outputs {t : Table} (h : t ∈ st.seal.outputs) :
    t ∈ st.outputs ∨ t.entries = st.builder.entries := by
  unfold MergeState.seal Builder.finish at h
  split at h
  · exact .inl h
  · next u hu =>
    split at hu
    · cases hu
      rcases mem_append.mp h with h | h
      · exact .inl h
      · rw [mem_singleton.mp h]
        exact .inr rfl
    · cases hu

theorem seal_outputs_apart
    (hsep : st.outputs.Pairwise fun a b => a.largestUserKey < b.smallestUserKey)
    (hlast : ∀ t ∈ st.outputs, ∀ x ∈ t.entries, ∀ y ∈ st.builder.entries, x.user < y.user) :
    st.seal.outputs.Pairwise fun a b => a.largestUserKey < b.smallestUserKey := by
  unfold MergeState.seal Builder.finish
  split
  · exact hsep
  · next u hu =>
    split at hu
    · cases hu
      refine pairwise_append.mpr ⟨hsep, pairwise_singleton _ _, ?_⟩
      intro a ha b hb
      rw [mem_singleton.mp hb]
      exact hlast a ha _ (getLast_mem a.ne) _ (head_mem _)
    · cases hu

end Seal

/-! ## The loop body -/

section Loop

variable {opt : Options} {floor : ReadSeq} {bottom : Bool} {pre : List Entry} {st : MergeState}
  {e : Entry}

/-- The state between the two halves of the body: `e`'s user key is current,
`e` itself not yet looked at. -/
structure Entered (floor : ReadSeq) (pre : List Entry) (e : Entry) (st st' : MergeState) :
    Prop where
  user : st'.currentUser = some e.user
  written : ∀ x, x ∈ st'.written ↔ x ∈ st.written
  seen : st'.floorVersionSeen = true ↔ ∃ x ∈ pre, x.user = e.user ∧ ¬ floor < WithTop.some x.seq
  outputs_lt : ∀ t ∈ st'.outputs, ∀ x ∈ t.entries, x.user < e.user
  outputs_apart : st'.outputs.Pairwise fun a b => a.largestUserKey < b.smallestUserKey
  builder_apart : ∀ t ∈ st'.outputs, ∀ x ∈ t.entries, ∀ y ∈ st'.builder.entries, x.user < y.user

theorem enterUser_entered (h : MergeInv floor bottom pre st)
    (hle : ∀ x ∈ pre, x.user ≤ e.user) : Entered floor pre e st (st.enterUser opt e.user) := by
  unfold MergeState.enterUser
  split
  · next hcur =>
    refine ⟨hcur, fun _ => Iff.rfl, ?_, ?_, h.outputs_apart, h.builder_apart⟩
    · rw [h.seen, hcur]
      simp only [Option.mem_some_iff, eq_comm]
    · exact fun t ht x hx => h.outputs_lt t ht x hx e.user hcur
  · next hcur =>
    -- a new key: every earlier version has a smaller user key
    have hlt : ∀ x ∈ pre, x.user < e.user := by
      intro x hx
      obtain ⟨u, hu, hxu⟩ := h.top x hx
      obtain ⟨y, hy, rfl⟩ := h.attained u hu
      refine lt_of_le_of_lt hxu (lt_of_le_of_ne (hle y hy) ?_)
      rintro heq
      exact hcur (heq ▸ hu)
    have hwritten : ∀ x ∈ st.written, x.user < e.user := fun x hx =>
      hlt x ((h.written x).mp hx).1
    have hseen : (false = true) ↔ ∃ x ∈ pre, x.user = e.user ∧ ¬ floor < WithTop.some x.seq := by
      refine ⟨fun hf => absurd hf (by decide), ?_⟩
      rintro ⟨x, hx, hxe, -⟩
      exact absurd hxe (ne_of_lt (hlt x hx))
    have hin : ∀ t ∈ st.outputs, ∀ x ∈ t.entries, x.user < e.user := fun t ht x hx =>
      hwritten x (mem_append_left _ (mem_flatMap.mpr ⟨t, ht, hx⟩))
    dsimp only
    split
    · refine ⟨rfl, fun x => mem_seal_written, hseen, ?_,
        seal_outputs_apart h.outputs_apart h.builder_apart, ?_⟩
      · intro t ht x hx
        rcases mem_seal_outputs ht with ht | ht
        · exact hin t ht x hx
        · exact hwritten x (mem_append_right _ (ht ▸ hx))
      · intro t _ x _ y hy
        rw [seal_builder] at hy
        cases hy
    · exact ⟨rfl, fun _ => Iff.rfl, hseen, hin, h.outputs_apart, h.builder_apart⟩

theorem kept_append {x : Entry} (hx : x.internalKey.less e.internalKey) :
    Kept floor bottom (pre ++ [e]) x ↔ Kept floor bottom pre x := by
  have hnew : e.user = x.user → e.tag ≤ x.tag := by
    intro hu
    rw [InternalKey.less_iff_tag (by exact hu.symm)] at hx
    exact le_of_lt (WithTop.coe_lt_coe.mp hx)
  simp only [Kept, mem_append, mem_singleton]
  refine or_congr_right (and_congr_right fun _ => and_congr_left fun _ => ?_)
  constructor
  · exact fun h y hy => h y (.inl hy)
  · rintro h y (hy | rfl) hu hf
    · exact h y hy hu hf
    · exact hnew hu

theorem keepVersion_iff {st' : MergeState} (h : Entered floor pre e st st')
    (hless : ∀ x ∈ pre, x.internalKey.less e.internalKey) :
    keepVersion floor bottom st'.floorVersionSeen e = true ↔
      Kept floor bottom (pre ++ [e]) e := by
  unfold keepVersion Kept
  split
  · next hf => exact iff_of_true rfl (.inl hf)
  · next hf =>
    have hnewest : st'.floorVersionSeen = false ↔
        ∀ x ∈ pre ++ [e], x.user = e.user → ¬ floor < WithTop.some x.seq → x.tag ≤ e.tag := by
      rw [← Bool.not_eq_true, h.seen]
      constructor
      · intro hno x hx hu hxf
        rcases mem_append.mp hx with hx | hx
        · exact absurd ⟨x, hx, hu, hxf⟩ hno
        · rw [mem_singleton.mp hx]
      · rintro hall ⟨x, hx, hu, hxf⟩
        have hlt := hless x hx
        rw [InternalKey.less_iff_tag (by exact hu)] at hlt
        exact absurd (hall x (mem_append_left _ hx) hu hxf)
          (Nat.not_le_of_lt (WithTop.coe_lt_coe.mp hlt))
    rw [← hnewest]
    simp only [hf, not_false_eq_true, true_and, false_or]
    cases st'.floorVersionSeen <;> simp [imp_iff_not_or]

theorem Entered.mergeInv {st' st'' : MergeState} (hent : Entered floor pre e st st')
    (hle : ∀ x ∈ pre, x.user ≤ e.user)
    (hwritten : ∀ x, x ∈ st''.written ↔ x ∈ pre ++ [e] ∧ Kept floor bottom (pre ++ [e]) x)
    (huser : st''.currentUser = st'.currentUser) (houts : st''.outputs = st'.outputs)
    (hseen : st''.floorVersionSeen =
      (st'.floorVersionSeen || decide (¬ floor < WithTop.some e.seq)))
    (hbuilder : ∀ y ∈ st''.builder.entries, y ∈ st'.builder.entries ∨ y = e) :
    MergeInv floor bottom (pre ++ [e]) st'' where
  written := hwritten
  top := by
    intro x hx
    refine ⟨e.user, huser.trans hent.user, ?_⟩
    rcases mem_append.mp hx with hx | hx
    · exact hle x hx
    · rw [mem_singleton.mp hx]
  attained := by
    intro u hu
    rw [huser, hent.user] at hu
    exact ⟨e, by simp, Option.some.inj hu⟩
  seen := by
    rw [hseen, Bool.or_eq_true, hent.seen, decide_eq_true_eq, huser, hent.user]
    simp only [Option.mem_some_iff, mem_append, mem_singleton]
    constructor
    · rintro (⟨x, hx, hu, hf⟩ | hf)
      · exact ⟨x, .inl hx, hu.symm, hf⟩
      · exact ⟨e, .inr rfl, rfl, hf⟩
    · rintro ⟨x, hx | rfl, hu, hf⟩
      · exact .inl ⟨x, hx, hu.symm, hf⟩
      · exact .inr hf
  outputs_lt := by
    intro t ht x hx u hu
    rw [houts] at ht
    rw [huser, hent.user] at hu
    exact Option.some.inj hu ▸ hent.outputs_lt t ht x hx
  outputs_apart := houts ▸ hent.outputs_apart
  builder_apart := by
    intro t ht x hx y hy
    rw [houts] at ht
    rcases hbuilder y hy with hy | rfl
    · exact hent.builder_apart t ht x hx y hy
    · exact hent.outputs_lt t ht x hx

theorem mergeStep_inv (opt : Options) (h : MergeInv floor bottom pre st)
    (hless : ∀ x ∈ pre, x.internalKey.less e.internalKey) :
    ∃ st', mergeStep opt floor bottom st e = .ok st' ∧ MergeInv floor bottom (pre ++ [e]) st' := by
  have hle : ∀ x ∈ pre, x.user ≤ e.user := fun x hx => InternalKey.less_user_le (hless x hx)
  have hent : Entered floor pre e st (st.enterUser opt e.user) := enterUser_entered h hle
  have hkeep : _ ↔ Kept floor bottom (pre ++ [e]) e := keepVersion_iff hent hless
  -- what was written before `e` is decided as before
  have hold : ∀ x ∈ pre, (x ∈ (st.enterUser opt e.user).written ↔
      Kept floor bottom (pre ++ [e]) x) := by
    intro x hx
    rw [hent.written, h.written, kept_append (hless x hx)]
    exact and_iff_right hx
  have hsub : ∀ x ∈ (st.enterUser opt e.user).written, x ∈ pre := fun x hx =>
    ((h.written x).mp ((hent.written x).mp hx)).1
  unfold mergeStep
  dsimp only
  split
  · next hk =>
    have hacc : (st.enterUser opt e.user).builder.Accepts e := by
      intro x hx
      exact hless x (hsub x (mem_append_right _ (mem_of_getLast? hx)))
    obtain ⟨b, hadd, hb⟩ := Builder.add_eq_ok hacc
    simp only [hadd]
    refine ⟨_, rfl, hent.mergeInv hle ?_ rfl rfl rfl ?_⟩
    · intro x
      have hmem : x ∈ MergeState.written { st.enterUser opt e.user with
            builder := b
            floorVersionSeen := (st.enterUser opt e.user).floorVersionSeen ||
              decide (¬ floor < WithTop.some e.seq) } ↔
          x ∈ (st.enterUser opt e.user).written ∨ x = e := by
        simp only [MergeState.written, hb, mem_append, mem_singleton, or_assoc]
      rw [hmem, mem_append, mem_singleton]
      constructor
      · rintro (hx | rfl)
        · exact ⟨.inl (hsub x hx), (hold x (hsub x hx)).mp hx⟩
        · exact ⟨.inr rfl, hkeep.mp hk⟩
      · rintro ⟨hx | rfl, hkx⟩
        · exact .inl ((hold x hx).mpr hkx)
        · exact .inr rfl
    · intro y hy
      simpa [hb] using hy
  · next hk =>
    refine ⟨_, rfl, hent.mergeInv hle ?_ rfl rfl rfl (fun y hy => .inl hy)⟩
    intro x
    have hmem : x ∈ MergeState.written { st.enterUser opt e.user with
          floorVersionSeen := (st.enterUser opt e.user).floorVersionSeen ||
            decide (¬ floor < WithTop.some e.seq) } ↔
        x ∈ (st.enterUser opt e.user).written := Iff.rfl
    rw [hmem, mem_append, mem_singleton]
    constructor
    · exact fun hx => ⟨.inl (hsub x hx), (hold x (hsub x hx)).mp hx⟩
    · rintro ⟨hx | rfl, hkx⟩
      · exact (hold x hx).mpr hkx
      · exact absurd (hkeep.mpr hkx) hk

end Loop

variable {bottom : Bool} {floor S : ReadSeq} {es I O : List Entry} {e : Entry} {key : Bytes}

theorem mergeLoop_inv (opt : Options) {rest : List Entry} :
    ∀ {pre : List Entry} {st : MergeState}, MergeInv floor bottom pre st →
      Increasing (pre ++ rest) →
      ∃ st', mergeLoop opt floor bottom st rest = .ok st'.seal ∧
        MergeInv floor bottom (pre ++ rest) st' := by
  induction rest with
  | nil =>
    intro pre st h _
    exact ⟨st, rfl, by rwa [append_nil]⟩
  | cons e rest ih =>
    intro pre st h hinc
    have hless : ∀ x ∈ pre, x.internalKey.less e.internalKey := fun x hx =>
      (pairwise_append.mp hinc).2.2 x hx e mem_cons_self
    obtain ⟨st', hstep, hinv⟩ := mergeStep_inv opt h hless
    rw [append_cons] at hinc ⊢
    obtain ⟨st'', hloop, hfinal⟩ := ih hinv hinc
    exact ⟨st'', by simp only [mergeLoop, hstep, hloop], hfinal⟩

/-- **The merge loop**: on strictly increasing input no `Add` is refused, exactly
the kept versions are written, and the files do not overlap. -/
theorem mergeLoop_spec (opt : Options) (floor : ReadSeq) (bottom : Bool) (hinc : Increasing es) :
    ∃ st, mergeLoop opt floor bottom MergeState.start es = .ok st ∧
      (∀ x, x ∈ st.outputs.flatMap Table.entries ↔ x ∈ es ∧ Kept floor bottom es x) ∧
      st.outputs.Pairwise fun a b => a.largestUserKey < b.smallestUserKey := by
  have hstart : MergeInv floor bottom [] MergeState.start := by
    refine ⟨?_, ?_, ?_, ?_, ?_, ?_, ?_⟩ <;> simp [MergeState.start, MergeState.written, Builder.new]
  obtain ⟨st, hloop, hinv⟩ := mergeLoop_inv opt hstart hinc
  refine ⟨st.seal, hloop, ?_, seal_outputs_apart hinv.outputs_apart hinv.builder_apart⟩
  intro x
  have hw : x ∈ st.seal.written ↔ x ∈ st.seal.outputs.flatMap Table.entries := by
    rw [MergeState.written, seal_builder, append_nil]
  rw [← hw, mem_seal_written]
  exact hinv.written x

/-! ## What a reader needs -/

/-- Sources of which one is newer than the other share no internal key. -/
theorem Increasing.of_merge {children : List (List Entry)} (h : ∀ c ∈ children, Increasing c)
    (hn : children.Pairwise fun a b => entryView.Newer a b ∨ entryView.Newer b a) :
    Increasing (merge children) := by
  refine merge_increasing h (pairwise_flatten.mpr ⟨?_, hn.imp ?_⟩)
  · intro c hc
    refine (h c hc).imp ?_
    exact fun hab heq => InternalKey.less_irrefl _ (heq ▸ hab)
  · intro a b hab x hx y hy heq
    have htag : x.tag = y.tag := WithTop.coe_inj.mp (congrArg InternalKey.tag heq)
    have hu : x.user = y.user := congrArg InternalKey.user heq
    rcases hab with hab | hab
    · exact absurd htag.symm (Nat.ne_of_lt (Entry.tag_lt_of_seq_lt (hab x hx y hy hu)))
    · exact absurd htag (Nat.ne_of_lt (Entry.tag_lt_of_seq_lt (hab y hy x hx hu.symm)))

/-! ## What is read -/

/-- The version of `key` that a read at `S` gets from `es`: the one with the largest tag. -/
def Latest (es : List Entry) (key : Bytes) (S : ReadSeq) (e : Entry) : Prop :=
  e ∈ es ∧ entryView.Visible key S e ∧ ∀ x ∈ es, entryView.Visible key S x → x.tag ≤ e.tag

section

variable (hO : ∀ x, x ∈ O ↔ x ∈ I ∧ Kept floor bottom I x)
include hO

/-- What is read but not kept is a tombstone at the bottom, and then nothing is left to
read: the read sees everything at or below the floor. -/
theorem silent_of_not_kept (hS : ∀ x ∈ I, ¬ floor < WithTop.some x.seq → WithTop.some x.seq ≤ S)
    (he : Latest I key S e) (hkept : ¬ Kept floor bottom I e)
    (hd : ∀ x ∈ I, ∀ y ∈ I, x.user = y.user → x.tag = y.tag → x = y) :
    bottom = true ∧ e.type = .deletion ∧ entryView.Silent O key S := by
  obtain ⟨heI, hev, hmax⟩ := he
  obtain ⟨hfloor, hrest⟩ := not_or.mp hkept
  have hnewest : ∀ x ∈ I, x.user = e.user → ¬ floor < WithTop.some x.seq → x.tag ≤ e.tag := by
    intro x hx hu hxf
    exact hmax x hx ⟨hu.trans hev.1, hS x hx hxf⟩
  have htomb : e.type = .deletion ∧ bottom = true := by
    by_contra hno
    exact hrest ⟨hfloor, hnewest, hno⟩
  refine ⟨htomb.2, htomb.1, ?_⟩
  intro x hx hxv
  obtain ⟨hxI, hxk⟩ := (hO x).mp hx
  have hxu : e.user = x.user := hev.1.trans hxv.1.symm
  have hle := hmax x hxI hxv
  rcases hxk with hxf | ⟨hxf, hxn, hxt⟩
  · -- above the floor, but not newer than `e`, which is not
    exact hfloor (lt_of_lt_of_le hxf (WithTop.coe_le_coe.mpr (Entry.seq_le_of_tag_le hle)))
  · obtain rfl := hd x hxI e heI hxu.symm (le_antisymm hle (hxn e heI hxu hfloor))
    exact hxt htomb

/-- **Retention covers the readers.**  `I` are the inputs, `O` what is kept of
them and `R` everything else; at the bottom level `R` has only newer versions. -/
theorem covers_of_kept {R : List Entry} (hd : entryView.Distinct I)
    (hbot : bottom = true → entryView.Newer R I) (hS : floor ≤ S ∨ ∀ x ∈ I, WithTop.some x.seq ≤ S)
    (k : Bytes) : entryView.Covers R I O k S := by
  rintro e ⟨heI, hev, hmax⟩
  by_cases hkept : Kept floor bottom I e
  · exact .inl ⟨(hO e).mpr ⟨heI, hkept⟩, hev, fun x hx => hmax x ((hO x).mp hx).1⟩
  · have huniq : ∀ x ∈ I, ∀ y ∈ I, x.user = y.user → x.tag = y.tag → x = y := fun x hx y hy hu ht =>
      hd x hx y hy hu (le_antisymm (Entry.seq_le_of_tag_le (le_of_eq ht))
        (Entry.seq_le_of_tag_le (le_of_eq ht.symm)))
    have hlatest : Latest I k S e := by
      refine ⟨heI, hev, fun x hx hxv => ?_⟩
      rcases Nat.lt_or_eq_of_le (hmax x hx hxv) with hlt | heq
      · exact le_of_lt (Entry.tag_lt_of_seq_lt hlt)
      · rw [hd x hx e heI (hxv.1.trans hev.1.symm) heq]
    obtain ⟨hb, htomb, hsilent⟩ := silent_of_not_kept hO
      (fun x hx hxf => hS.elim (not_lt.mp hxf).trans fun hall => hall x hx) hlatest hkept huniq
    refine .inr ⟨by simp [entryView, htomb], hsilent, ?_⟩
    exact fun x hx hxv => hbot hb x hx e heI (hxv.1.trans hev.1.symm)

end

/-! ## The output files -/

def plainOptions : Options := { size := ⟨fun _ => 0, fun _ => 0⟩ }

end BedrockKV
