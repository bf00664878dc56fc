/-
# `BedrockKV.WalFile` — a log file as the versions it replays to

`File.entries` is what a replay of the file applies.  A log that a writer has
left is `Whole`: its bytes are the records of its entries, one after another,
and each of them parses.  Two facts carry every crash argument:

    a write adds its version at the end of a whole log          (`Whole.append`)
    a shorter file replays to a prefix, whatever its end is     (`entries_mono`)
-/
import BedrockKV.Disk
import BedrockKV.LogRecover

namespace BedrockKV

open List Log

/-! ## Replaying a list of records -/

theorem replayContents_parsed {es : List Entry} (hfit : ∀ e ∈ es, e.Fits) :
    ∀ {good : Nat} {records : List (Bytes × Nat)} {stop : Stop},
      records.map Prod.fst = es.map encodePayload →
      (replayContents good records stop).records.map Prod.snd = es ∧
      (replayContents good records stop).truncatedAt =
        match stop with
        | .eof _ => none
        | .corruption => some (lastEnd good records) := by
  induction es with
  | nil =>
    intro good records stop h
    obtain rfl := map_eq_nil_iff.mp h
    cases stop <;> exact ⟨rfl, rfl⟩
  | cons e es ih =>
    intro good records stop h
    obtain ⟨⟨p, endOffset⟩, records, rfl, hp, hrest⟩ := map_eq_cons_iff.mp h
    obtain ⟨he, hes⟩ := forall_mem_cons.mp hfit
    obtain ⟨hrecords, htrunc⟩ := @ih hes endOffset records stop hrest
    obtain rfl : p = encodePayload e := hp
    simp only [replayContents, parseRecord_encodePayload he, map_cons, hrecords, lastEnd]
    exact ⟨trivial, htrunc⟩

/-- A replay of fewer records applies a prefix of what the longer one applies. -/
theorem replayContents_mono {records : List (Bytes × Nat)} :
    ∀ {more : List (Bytes × Nat)} {good : Nat} {stop stop' : Stop},
      (replayContents good records stop).records <+:
        (replayContents good (records ++ more) stop').records := by
  induction records with
  | nil =>
    intro more good stop stop'
    cases stop <;> exact nil_prefix
  | cons r records ih =>
    intro more good stop stop'
    simp only [cons_append, replayContents]
    cases parseRecord r.1 with
    | none => exact prefix_refl _
    | some e => exact prefix_cons_inj _ |>.mpr ih

theorem encodeRecords_append (offset : Nat) (ps qs : List Bytes) :
    encodeRecords offset (ps ++ qs) =
      encodeRecords offset ps ++ encodeRecords (offset + (encodeRecords offset ps).length) qs := by
  induction ps generalizing offset with
  | nil => rfl
  | cons p ps ih =>
    simp only [cons_append, encodeRecords, ih, append_assoc, length_append, Nat.add_assoc]

/-! ## Cut logs -/

theorem replayContents_cut {records : List (Bytes × Nat)} {stop : Stop} {k : Nat} :
    ∀ {good : Nat}, (replayContents good records stop).truncatedAt = some k →
      ∃ done more, records = done ++ more ∧ k = lastEnd good done ∧
        ∀ q, replayContents good done (.eof q) =
          ⟨(replayContents good records stop).records, none⟩ := by
  induction records with
  | nil =>
    intro good h
    cases stop with
    | eof q => simp [replayContents] at h
    | corruption =>
      obtain rfl : good = k := by simpa [replayContents] using h
      exact ⟨[], [], rfl, rfl, fun _ => rfl⟩
  | cons r records ih =>
    obtain ⟨p, e⟩ := r
    intro good h
    simp only [replayContents] at h ⊢
    cases hp : parseRecord p with
    | none =>
      simp only [hp] at h
      obtain rfl : good = k := by simpa using h
      exact ⟨[], (p, e) :: records, rfl, rfl, fun _ => rfl⟩
    | some entry =>
      simp only [hp] at h
      obtain ⟨done, more, rfl, rfl, hdone⟩ := ih h
      refine ⟨(p, e) :: done, more, rfl, rfl, fun q => ?_⟩
      simp only [replayContents, hp, hdone q]

/-- **A cut log replays to the same records, and is not cut again.** -/
theorem replayLog_take {F : Bytes} {k : Nat} (h : (replayLog F).truncatedAt = some k) :
    replayLog (F.take k) = ⟨(replayLog F).records, none⟩ := by
  rw [replayLog_eq] at h
  rw [replayLog_eq, replayLog_eq F]
  obtain ⟨done, more, hsplit, rfl, hdone⟩ := replayContents_cut h
  have hc : contents F = ⟨done ++ more, (contents F).stop⟩ := by rw [← hsplit]
  rw [contents_take_lastEnd hc]
  exact hdone _

namespace File

/-! ## Entries -/

/-- The versions a replay of the file applies, oldest first. -/
def entries (f : File) : List Entry := (replayLog f.bytes).records.map Prod.snd

theorem entries_congr {f g : File} (h : f.bytes = g.bytes) : f.entries = g.entries := by
  unfold entries
  rw [h]

@[simp] theorem entries_sync (f : File) : f.sync.entries = f.entries := rfl

/-- **A shorter file replays to a prefix.** -/
theorem entries_mono {f g : File} (h : g.bytes <+: f.bytes) : g.entries <+: f.entries := by
  have hagree : Agree g.bytes.length f.bytes g.bytes := by
    refine ⟨?_, h.length_le, le_rfl⟩
    rw [take_length]
    exact (prefix_iff_eq_take.mp h).symm
  have hrecords : (contents g.bytes).records =
      (contents f.bytes).records.takeWhile fun r => decide (r.2 ≤ g.bytes.length) :=
    records_of_agree hagree rfl
  obtain ⟨more, hmore⟩ : (contents g.bytes).records <+: (contents f.bytes).records :=
    hrecords ▸ takeWhile_prefix _
  unfold entries
  rw [replayLog_eq, replayLog_eq]
  rw [← hmore]
  exact replayContents_mono.map _

/-- A log as its writer leaves it. -/
structure Whole (f : File) : Prop where
  bytes : f.bytes = encodeRecords 0 (f.entries.map encodePayload)
  fits : ∀ e ∈ f.entries, e.Fits
  synced : f.synced ≤ f.bytes.length

theorem replay_encodeRecords {f : File} {es : List Entry}
    (h : f.bytes = encodeRecords 0 (es.map encodePayload)) (hfit : ∀ e ∈ es, e.Fits) :
    f.entries = es ∧ (replayLog f.bytes).truncatedAt = none := by
  have hc := contents_encodeRecords (es.map encodePayload)
  rw [← h] at hc
  unfold entries
  rw [replayLog_eq, hc]
  exact replayContents_parsed hfit (map_fst_placed 0 _)

theorem whole_of_bytes {f : File} {es : List Entry}
    (h : f.bytes = encodeRecords 0 (es.map encodePayload)) (hfit : ∀ e ∈ es, e.Fits)
    (hsync : f.synced ≤ f.bytes.length) : f.Whole ∧ f.entries = es := by
  have he := (replay_encodeRecords h hfit).1
  exact ⟨⟨he.symm ▸ h, he.symm ▸ hfit, hsync⟩, he⟩

theorem whole_empty : File.empty.Whole ∧ File.empty.entries = [] :=
  @whole_of_bytes .empty [] rfl (nofun) le_rfl

theorem Whole.sync {f : File} (h : f.Whole) : f.sync.Whole := ⟨h.bytes, h.fits, le_rfl⟩

/-- **A write adds its version at the end.** -/
theorem Whole.append {f : File} (h : f.Whole) {e : Entry} (he : e.Fits) :
    (f.append (encodeRecord (encodePayload e) f.bytes.length)).Whole ∧
    (f.append (encodeRecord (encodePayload e) f.bytes.length)).entries = f.entries ++ [e] := by
  refine whole_of_bytes ?_ ?_ ?_
  · rw [map_append, encodeRecords_append, ← h.bytes]
    simp [File.append, encodeRecords]
  · intro x hx
    rcases mem_append.mp hx with hx | hx
    · exact h.fits x hx
    · exact mem_singleton.mp hx ▸ he
  · have := h.synced
    simp only [File.append, length_append]
    omega

theorem Whole.truncatedAt {f : File} (h : f.Whole) : (replayLog f.bytes).truncatedAt = none :=
  (replay_encodeRecords h.bytes h.fits).2

/-! ## Power cuts -/

theorem isPrefix_cut (f : File) (n : Nat) : (f.cut n).bytes <+: f.bytes := take_prefix _ _

theorem cut_of_synced {f : File} (h : f.bytes.length ≤ f.synced) (n : Nat) :
    (f.cut n).entries = f.entries :=
  entries_congr (take_of_length_le (h.trans (Nat.le_max_left _ _)))

/-- What outlives a power cut when one write was not synced: all before it, and
the write or not. -/
theorem cut_of_inFlight {f : File} (hf : f.Whole) (hsync : f.bytes.length ≤ f.synced) {e : Entry}
    (he : e.Fits) (n : Nat) :
    ((f.append (encodeRecord (encodePayload e) f.bytes.length)).cut n).entries = f.entries ∨
    ((f.append (encodeRecord (encodePayload e) f.bytes.length)).cut n).entries =
      f.entries ++ [e] := by
  set g := f.append (encodeRecord (encodePayload e) f.bytes.length) with hg
  have hlow : f.entries <+: (g.cut n).entries := by
    refine entries_mono ?_
    have hb : (g.cut n).bytes = g.bytes.take (max f.synced n) := rfl
    rw [hb]
    refine prefix_take_iff.mpr ⟨prefix_append _ _, hsync.trans (Nat.le_max_left _ _)⟩
  have hhigh : (g.cut n).entries <+: f.entries ++ [e] :=
    (hf.append he).2 ▸ entries_mono (isPrefix_cut g n)
  obtain ⟨xs, hxs⟩ := hlow
  rw [← hxs, prefix_append_right_inj] at hhigh
  rcases xs with _ | ⟨x, xs⟩
  · exact .inl (by rw [← hxs, append_nil])
  · obtain ⟨rfl, hnil⟩ := cons_prefix_cons.mp hhigh
    obtain rfl := prefix_nil.mp hnil
    exact .inr hxs.symm

end File

end BedrockKV
