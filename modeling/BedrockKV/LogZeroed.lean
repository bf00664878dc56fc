/-
# `BedrockKV.LogZeroed` — a log with a hole in it

A range of a written log is zero, as after a write that never reached the disk.
The reader takes a zero header for the padding of its block and goes on with
the next one.  What stops it there is only the fragment it finds: a fragment
that does not fit the record being assembled.

`FirstDamaged F G x`: the first fragment of the log `F` that `G` has changed
starts at `x`.  `Stops F G`: if the header there is zero, the first header behind
it, at the start of a block `B`, is changed too, or begins a record where the
one at `x` continued one, or the other way round.

    the reader stops at the hole      ⟹  `Stops F G`
    `Stops F G`, and the CRCs tell    ⟹  it stops there                (`zeroed_prefix`)

A log whose first record fills the first block, and whose first block is zero,
reads as its second record alone (`zeroed_block_skipped`).
-/
import BedrockKV.LogSession

namespace BedrockKV.Log

open List Loop

/-! ## Zeroed bytes -/

/-- The file with the bytes from `a` up to `b` overwritten with zeros. -/
def zeroed (F : Bytes) (a b : Nat) : Bytes :=
  F.mapIdx fun i x => if a ≤ i ∧ i < b then 0 else x

@[simp] theorem length_zeroed (F : Bytes) (a b : Nat) : (zeroed F a b).length = F.length := by
  rw [zeroed, length_mapIdx]

theorem getD_zeroed (F : Bytes) (a b i : Nat) :
    (zeroed F a b).getD i 0 = if a ≤ i ∧ i < b then 0 else F.getD i 0 := by
  rw [zeroed, getD_eq_getElem?_getD, getElem?_mapIdx, getD_eq_getElem?_getD]
  cases F[i]? with
  | none | some x => simp

/-- `G` has the bytes of `F`, some of them replaced by zeros. -/
structure Blanks (F G : Bytes) : Prop where
  length : G.length = F.length
  getD : ∀ i, G.getD i 0 = F.getD i 0 ∨ G.getD i 0 = 0

theorem Blanks.refl (F : Bytes) : Blanks F F := ⟨rfl, fun _ => .inl rfl⟩

theorem blanks_zeroed (F : Bytes) (a b : Nat) : Blanks F (zeroed F a b) := by
  refine ⟨length_zeroed F a b, fun i => ?_⟩
  rw [getD_zeroed]
  split
  · exact .inr rfl
  · exact .inl rfl

variable {F : Bytes}

section Blanks

variable {F G : Bytes} {o : Nat}

theorem Blanks.bufferEnd (h : Blanks F G) (o : Nat) : bufferEnd G o = bufferEnd F o := by
  rw [Log.bufferEnd, Log.bufferEnd, h.length]

theorem Blanks.headerAt_zero (h : Blanks F G) (hF : headerAt F o = zeroHeader) :
    headerAt G o = zeroHeader := by
  rw [headerAt_eq_zero] at hF ⊢
  intro i hi
  rcases h.getD (o + i) with hG | hG
  · exact hG.trans (hF i hi)
  · exact hG

theorem Blanks.skips (h : Blanks F G) (hF : Skips F o) : Skips G o := by
  rcases hF with hF | hF
  · exact .inl (by rwa [h.bufferEnd])
  · exact .inr (h.headerAt_zero hF)

theorem physAt_start {t : UInt8} {f : Bytes} {e : Nat} (hp : physAt F o = .ok t f e) :
    ∃ s, e = s + kHeaderSize + f.length ∧ f.length = (headerAt F s).length ∧
      ¬ Skips F s ∧ physAt F s = .ok t f e ∧
        ∀ {G : Bytes}, Blanks F G → physAt G o = physAt G s := by
  induction o using physAt.induct F with
  | case1 o hskip hle ih =>
    rw [physAt, if_pos hskip, if_pos hle] at hp
    obtain ⟨s, he, hlen, hs, hF, hG⟩ := ih hp
    refine ⟨s, he, hlen, hs, hF, fun {G} h => ?_⟩
    rw [physAt, if_pos (h.skips hskip), if_pos (h.length ▸ hle)]
    exact hG h
  | case2 o hskip hle =>
    rw [physAt, if_pos hskip, if_neg hle] at hp
    cases hp
  | case3 o hskip hint =>
    have hF := hp
    rw [physAt, if_neg hskip, if_pos hint] at hp
    obtain ⟨-, rfl, rfl⟩ := Phys.ok.inj hp
    have hlen : (fragmentAt F o).length = (headerAt F o).length := by
      have hfit := le_trans hint.2.1 (Nat.min_le_right _ _)
      rw [fragmentAt, length_take, length_drop]
      omega
    exact ⟨o, by rw [hlen], hlen, hskip, hF, fun _ => rfl⟩
  | case4 o hskip hint =>
    rw [physAt, if_neg hskip, if_neg hint] at hp
    cases hp

theorem Blanks.physAt_eof {q : Nat} (h : Blanks F G) (hp : physAt F o = .eof q) :
    physAt G o = .eof q := by
  induction o using physAt.induct F with
  | case1 o hskip hle ih =>
    rw [physAt, if_pos hskip, if_pos hle] at hp
    rw [physAt, if_pos (h.skips hskip), if_pos (h.length ▸ hle)]
    exact ih hp
  | case2 o hskip hle =>
    rw [physAt, if_pos hskip, if_neg hle] at hp
    rw [physAt, if_pos (h.skips hskip), if_neg (h.length ▸ hle)]
    exact hp
  | case3 o hskip hint =>
    rw [physAt, if_neg hskip, if_pos hint] at hp
    cases hp
  | case4 o hskip hint =>
    rw [physAt, if_neg hskip, if_neg hint] at hp
    cases hp

end Blanks

/-! ## Fragments and their places -/

structure Fragment where
  type : UInt8
  body : Bytes
  last : Nat

def Fragment.start (y : Fragment) : Nat := y.last - y.body.length - kHeaderSize

def Stream.fragments : Stream → List Fragment
  | .frag t f e rest => ⟨t, f, e⟩ :: rest.fragments
  | _ => []

/-- The stream that continues as `s` after some fragments. -/
def Stream.after (s : Stream) : List Fragment → Stream
  | [] => s
  | y :: ys => .frag y.type y.body y.last (s.after ys)

/-- Where the fragments of a file start. -/
def starts (F : Bytes) : List Nat := (stream F 0).fragments.map Fragment.start

/-- The fragment of `F` at `s`, its header included, is not what `G` has there. -/
def Damaged (F G : Bytes) (s : Nat) : Prop :=
  (F.drop s).take (kHeaderSize + (headerAt F s).length) ≠
    (G.drop s).take (kHeaderSize + (headerAt F s).length)

instance (F G : Bytes) (s : Nat) : Decidable (Damaged F G s) := inferInstanceAs (Decidable (_ ≠ _))

def FirstDamaged (F G : Bytes) (x : Nat) : Prop :=
  (starts F).find? (fun s => decide (Damaged F G s)) = some x

/-- Behind `x`, the first block that does not start with a zero header is `B`. -/
structure FirstHeader (G : Bytes) (x B : Nat) : Prop where
  behind : x < B
  aligned : B % kBlockSize = 0
  room : B + kHeaderSize ≤ G.length
  header : headerAt G B ≠ zeroHeader
  first : ∀ B', x < B' → B' < B → B' % kBlockSize = 0 → headerAt G B' = zeroHeader

/-- The fragment at `s` begins a record. -/
def Begins (F : Bytes) (s : Nat) : Prop :=
  (headerAt F s).type = kFullType ∨ (headerAt F s).type = kFirstType

/-- Where the first changed fragment has a zero header, the fragment that the
reader finds next is changed too, or does not fit. -/
def Stops (F G : Bytes) : Prop :=
  ∀ x, FirstDamaged F G x → headerAt G x = zeroHeader →
    ∀ B, FirstHeader G x B → Damaged F G B ∨ (Begins F B ↔ ¬ Begins F x)

/-- The checks see the change to the first fragment that the reader meets: its
length does not fit or its CRC is wrong, unless the whole header is zero. -/
def Detected (F G : Bytes) : Prop :=
  ∀ x, FirstDamaged F G x → (headerAt G x ≠ zeroHeader → ¬ Intact G x) ∧
    ∀ B, FirstHeader G x B → Damaged F G B → ¬ Intact G B

/-- The records that the reader returns are those of the log, each at its place,
up to one of them. -/
def InOrder (G : Bytes) (ps : List Bytes) : Prop :=
  ∃ k last r, ReadsAt G ((placed 0 ps).take k) last r

/-! ## Reading around the hole -/

section Walk

variable {F G : Bytes} {o x B : Nat}

theorem window {bs : Bytes} {s n : Nat} (h : kHeaderSize ≤ n) :
    headerAt ((bs.drop s).take n) 0 = headerAt bs s := by
  rw [headerAt_take (by omega), headerAt_drop, Nat.add_zero]

theorem Blanks.physAt_undamaged (h : Blanks F G) (hskip : ¬ Skips F o) (hd : ¬ Damaged F G o) :
    physAt G o = physAt F o := by
  have hwin := not_not.mp hd
  have hhead : headerAt F o = headerAt G o := by
    rw [← window (Nat.le_add_right kHeaderSize (headerAt F o).length), hwin,
      window (Nat.le_add_right _ _)]
  have hfrag : fragmentAt F o = fragmentAt G o := by
    have hbody := congrArg (List.drop kHeaderSize) hwin
    rwa [drop_take, drop_take, drop_drop, drop_drop, Nat.add_sub_cancel_left,
      ← fragmentAt, hhead, ← fragmentAt] at hbody
  have hskipG : ¬ Skips G o := by
    rwa [Skips, h.bufferEnd, ← hhead]
  have hint : Intact G o ↔ Intact F o := by
    rw [Intact, Intact, h.bufferEnd, hhead, hfrag]
  rw [physAt, physAt.eq_1 F, if_neg hskip, if_neg hskipG, hhead, hfrag]
  simp only [hint]

theorem fragments_cons {y : Fragment} {zs : List Fragment} (h : (stream F o).fragments = y :: zs) :
    physAt F o = .ok y.type y.body y.last ∧ (stream F y.last).fragments = zs := by
  cases hp : physAt F o with
  | eof q =>
    rw [stream_eof hp] at h
    cases h
  | corruption =>
    rw [stream_corruption hp] at h
    cases h
  | ok t f e =>
    rw [stream_ok hp] at h
    obtain ⟨rfl, rfl⟩ := List.cons.inj h
    exact ⟨rfl, rfl⟩

/-- **Up to the first changed fragment the files are read alike.** -/
theorem Blanks.stream_walk (h : Blanks F G) {zs : List Fragment} (ys : List Fragment) :
    ∀ {o : Nat}, (stream F o).fragments = ys ++ zs → (∀ y ∈ ys, ¬ Damaged F G y.start) →
      ∃ o', stream F o = (stream F o').after ys ∧ stream G o = (stream G o').after ys ∧
        (stream F o').fragments = zs := by
  induction ys with
  | nil => exact fun hF _ => ⟨_, rfl, rfl, hF⟩
  | cons y ys ih =>
    intro o hF hd
    obtain ⟨hy, hd⟩ := forall_mem_cons.mp hd
    obtain ⟨hp, hrest⟩ := fragments_cons hF
    obtain ⟨s, he, hlen, hs, hF', hG⟩ := physAt_start hp
    have hstart : y.start = s := by
      rw [Fragment.start, he]
      omega
    have hpG : physAt G o = .ok y.type y.body y.last := by
      rw [hG h, h.physAt_undamaged hs (hstart ▸ hy), hF']
    obtain ⟨o', hF₁, hG₁, hzs⟩ := ih hrest hd
    refine ⟨o', ?_, ?_, hzs⟩
    · rw [stream_ok hp, hF₁]
      rfl
    · rw [stream_ok hpG, hG₁]
      rfl

/-- **A zero header is passed over**, with every block behind it that starts with one. -/
theorem FirstHeader.physAt (h : FirstHeader G x B) (hx : headerAt G x = zeroHeader) :
    physAt G x = physAt G B := by
  have hroom := h.room
  have key : ∀ o, x ≤ o → o < B → headerAt G o = zeroHeader → Log.physAt G o = Log.physAt G B := by
    intro o
    induction o using physAt.induct G with
    | case1 o hskip hle ih =>
      intro hxo hoB _
      have hlt := lt_blockEnd o
      rw [Log.physAt, if_pos hskip, if_pos hle]
      have hal : blockEnd o % kBlockSize = 0 := Nat.mul_mod_left _ _
      have hB : blockEnd o ≤ B := by
        have := h.aligned
        simp only [blockEnd, kBlockSize] at this ⊢
        omega
      rcases Nat.lt_or_eq_of_le hB with hB | hB
      · exact ih (by omega) hB (h.first _ (by omega) hB hal)
      · rw [hB]
    | case2 o hskip hle =>
      intro _ hoB _
      have := h.aligned
      simp only [blockEnd, kBlockSize] at this hle
      omega
    | case3 o hskip _ | case4 o hskip _ => exact fun _ _ hz => absurd (.inr hz) hskip
  exact key x (Nat.le_refl x) h.behind hx

theorem physAt_blank (h : ∀ B, ¬ FirstHeader G x B) (hx : headerAt G x = zeroHeader) :
    ∃ q, physAt G x = .eof q := by
  have key : ∀ o, x ≤ o →
      (∀ B', x < B' → B' ≤ o → B' % kBlockSize = 0 → headerAt G B' = zeroHeader) →
      headerAt G o = zeroHeader → ∃ q, physAt G o = .eof q := by
    intro o
    induction o using physAt.induct G with
    | case1 o hskip hle ih =>
      intro hxo hfirst _
      have hlt := lt_blockEnd o
      rw [physAt, if_pos hskip, if_pos hle]
      have hal : blockEnd o % kBlockSize = 0 := Nat.mul_mod_left _ _
      have hbefore : ∀ B', x < B' → B' < blockEnd o → B' % kBlockSize = 0 →
          headerAt G B' = zeroHeader := by
        intro B' hx' hB' hal'
        refine hfirst B' hx' ?_ hal'
        simp only [blockEnd, kBlockSize] at hB' hal'
        omega
      by_cases hz : headerAt G (blockEnd o) = zeroHeader
      · refine ih (by omega) (fun B' hx' hB' hal' => ?_) hz
        rcases Nat.lt_or_eq_of_le hB' with hB' | rfl
        · exact hbefore B' hx' hB' hal'
        · exact hz
      · -- no room is left for a header
        have hend : G.length < blockEnd o + kHeaderSize := by
          by_contra hroom
          exact h _ ⟨by omega, hal, by omega, hz, hbefore⟩
        have hnext := blockEnd_of_aligned (p := 0) hal (by decide)
        rw [Nat.add_zero] at hnext
        have hskip' : Skips G (blockEnd o) := by
          refine .inl ?_
          rw [bufferEnd]
          omega
        have hover : ¬ blockEnd o + kBlockSize ≤ G.length := by
          simp only [kBlockSize, kHeaderSize] at hend ⊢
          omega
        rw [physAt, if_pos hskip', hnext, if_neg hover]
        exact ⟨_, rfl⟩
    | case2 o hskip hle =>
      intro _ _ _
      rw [physAt, if_pos hskip, if_neg hle]
      exact ⟨o, rfl⟩
    | case3 o hskip _ | case4 o hskip _ => exact fun _ _ hz => absurd (.inr hz) hskip
  exact key x (Nat.le_refl x) (fun B' hx' hB' _ => by omega) hx

theorem physAt_corruption (hz : headerAt G o ≠ zeroHeader) (hroom : o + kHeaderSize ≤ bufferEnd G o)
    (hint : ¬ Intact G o) : physAt G o = .corruption := by
  have hskip : ¬ Skips G o := by
    rintro (hs | hs)
    · omega
    · exact hz hs
  rw [physAt, if_neg hskip, if_neg hint]

theorem stream_suffix (hlen : G.length = F.length) (hdrop : G.drop B = F.drop B) :
    ∀ {o : Nat}, B ≤ o → stream G o = stream F o := by
  have hd : ∀ o, B ≤ o → G.drop o = F.drop o := by
    intro o ho
    rw [show o = B + (o - B) by omega, ← drop_drop, ← drop_drop, hdrop]
  have hhead : ∀ o, B ≤ o → headerAt G o = headerAt F o := by
    intro o ho
    rw [← Nat.add_zero o, ← headerAt_drop, ← headerAt_drop, hd o ho]
  have hphys : ∀ o, B ≤ o → physAt G o = physAt F o := by
    intro o
    induction hn : F.length - o using Nat.strong_induction_on generalizing o with
    | _ n ih =>
      intro ho
      have hlt := lt_blockEnd o
      have hnext : physAt G (blockEnd o) = physAt F (blockEnd o) := by
        rcases Nat.lt_or_ge o F.length with hin | hend
        · exact ih _ (by omega) _ rfl (by omega)
        · rw [physAt_end (by omega), physAt_end (by omega)]
      have hskip : Skips G o ↔ Skips F o := by
        rw [Skips, Skips, bufferEnd, bufferEnd, hlen, hhead o ho]
      have hfrag : fragmentAt G o = fragmentAt F o := by
        rw [fragmentAt, fragmentAt, hhead o ho, hd _ (by omega)]
      have hint : Intact G o ↔ Intact F o := by
        rw [Intact, Intact, bufferEnd, bufferEnd, hlen, hhead o ho, hfrag]
      rw [physAt, physAt.eq_1 F, hlen, hnext, hhead o ho, hfrag]
      simp only [hskip, hint]
  intro o
  induction o using stream.induct F with
  | case1 o q hp =>
    intro ho
    rw [stream_eof hp, stream_eof ((hphys o ho).trans hp)]
  | case2 o hp =>
    intro ho
    rw [stream_corruption hp, stream_corruption ((hphys o ho).trans hp)]
  | case3 o t f e hp ih =>
    intro ho
    have hb := physAt_bounds hp
    rw [stream_ok hp, stream_ok ((hphys o ho).trans hp), ih (by omega)]

end Walk

/-! ## Assembling around the hole -/

section Assemble

variable {f : Bytes} {scratch : Option Bytes} {t : UInt8} {e q : Nat} {rest : Stream}

theorem assembleFragment_more {bytes : Bytes} (h : assembleFragment scratch t f = .more bytes) :
    bytes = scratch.getD [] ++ f := by
  unfold assembleFragment at h
  cases scratch <;> split_ifs at h <;> simp_all

theorem begins_iff (h : assembleFragment scratch t f ≠ .fail) :
    (t = kFullType ∨ t = kFirstType) ↔ scratch = none := by
  unfold assembleFragment at h
  cases scratch <;> split_ifs at h <;> simp_all [kFullType, kFirstType, kMiddleType, kLastType]

theorem assembleFragment_fail {other : Option Bytes} (h : assembleFragment other t f ≠ .fail) :
    assembleFragment scratch t f = .fail ↔ ¬ (scratch = none ↔ other = none) := by
  unfold assembleFragment at h ⊢
  cases scratch <;> cases other <;> split_ifs at h ⊢ <;> simp_all

theorem assemble_fits (h : (assemble scratch (.frag t f e rest)).stop = .eof q) :
    assembleFragment scratch t f ≠ .fail := by
  intro hfail
  rw [assemble_frag, hfail] at h
  cases h

theorem assemble_rest (h : (assemble scratch (.frag t f e rest)).stop = .eof q) :
    ∃ scratch', (assemble scratch' rest).stop = .eof q := by
  have hfits := assemble_fits h
  rw [assemble_frag] at h
  cases hasm : assembleFragment scratch t f with
  | record payload =>
    simp only [hasm] at h
    exact ⟨none, h⟩
  | more bytes =>
    simp only [hasm] at h
    exact ⟨some bytes, h⟩
  | fail => exact absurd hasm hfits

theorem assemble_some (S : Stream) :
    ∀ {v : Bytes}, (assemble (some v) S).stop = .eof q →
      ∃ w e c, ∀ v', assemble (some v') S = Contents.cons (v' ++ w) e c := by
  induction S with
  | eof _ | corruption =>
    intro v h
    cases h
  | frag t f e rest ih =>
    intro v h
    have hfits := assemble_fits h
    by_cases hlast : t = kLastType
    · refine ⟨f, e, assemble none rest, fun v' => ?_⟩
      subst hlast
      rfl
    · have hmid : t = kMiddleType := by
        by_contra hne
        refine hfits ?_
        simp [assembleFragment, hlast, hne]
      subst hmid
      rw [assemble_frag] at h
      obtain ⟨w, e', c, hw⟩ := ih h
      refine ⟨f ++ w, e', c, fun v' => ?_⟩
      rw [← append_assoc]
      exact hw (v' ++ f)

theorem assemble_cons (h : (assemble scratch (.frag t f e rest)).stop = .eof q) :
    ∃ p e' c, assemble scratch (.frag t f e rest) = Contents.cons p e' c := by
  have hfits := assemble_fits h
  rw [assemble_frag] at h ⊢
  cases hasm : assembleFragment scratch t f with
  | record payload => exact ⟨payload, e, _, rfl⟩
  | more bytes =>
    simp only [hasm] at h
    obtain ⟨w, e', c, hw⟩ := assemble_some rest h
    exact ⟨_, e', c, hw bytes⟩
  | fail => exact absurd hasm hfits

def bodies (ys : List Fragment) : Bytes := ys.flatMap Fragment.body

/-- **A stretch of fragments** that a reader gets through gives some records and
leaves it in some state, whatever comes next; with no record, all bodies are in
the state. -/
theorem assemble_after {T : Stream} (ys : List Fragment) :
    ∀ {scratch : Option Bytes}, (assemble scratch (T.after ys)).stop = .eof q →
      ∃ before scratch', (∀ U : Stream,
          assemble scratch (U.after ys) = (assemble scratch' U).prepend before) ∧
        (∀ r ∈ before, ∃ y ∈ ys, r.2 = y.last) ∧
        (before = [] → scratch'.getD [] = scratch.getD [] ++ bodies ys ∧
          (scratch ≠ none ∨ ys ≠ [] → scratch' ≠ none)) := by
  induction ys with
  | nil =>
    intro scratch _
    refine ⟨[], scratch, fun _ => rfl, by simp, fun _ => ⟨by simp [bodies], ?_⟩⟩
    rintro (h | h)
    · exact h
    · exact absurd rfl h
  | cons y ys ih =>
    intro scratch h
    have hstep := fun U : Stream => assemble_frag scratch y.type y.body y.last (U.after ys)
    replace h := hstep T ▸ h
    cases hasm : assembleFragment scratch y.type y.body with
    | record payload =>
      simp only [hasm] at h hstep
      obtain ⟨before, scratch', hU, hends, -⟩ := ih h
      refine ⟨(payload, y.last) :: before, scratch', fun U => (hstep U).trans ?_, ?_,
        fun hnil => nomatch hnil⟩
      · rw [hU]
        rfl
      · intro r hr
        rcases mem_cons.mp hr with rfl | hr
        · exact ⟨y, mem_cons_self, rfl⟩
        · obtain ⟨z, hz, he⟩ := hends r hr
          exact ⟨z, mem_cons_of_mem _ hz, he⟩
    | more bytes =>
      simp only [hasm] at h hstep
      obtain ⟨before, scratch', hU, hends, hnone⟩ := ih h
      refine ⟨before, scratch', fun U => (hstep U).trans (hU U), ?_, fun hnil => ?_⟩
      · intro r hr
        obtain ⟨z, hz, he⟩ := hends r hr
        exact ⟨z, mem_cons_of_mem _ hz, he⟩
      · obtain ⟨hbytes, hsome⟩ := hnone hnil
        refine ⟨?_, fun _ => hsome (.inl nofun)⟩
        rw [hbytes, Option.getD_some, assembleFragment_more hasm, bodies, bodies,
          flatMap_cons, append_assoc]
    | fail =>
      simp only [hasm] at h
      cases h

end Assemble

section Skip

variable {F : Bytes} {x B q : Nat} {scratch : Option Bytes}

/-- A log that is read to its end is read through the start of each block. -/
theorem stream_through (haligned : B % kBlockSize = 0) (hB : B ≤ F.length) :
    ∀ {o : Nat} {scratch : Option Bytes}, o ≤ B → (assemble scratch (stream F o)).stop = .eof q →
      ∃ ys, stream F o = (stream F B).after ys ∧ ∀ y ∈ ys, y.last ≤ B := by
  intro o
  induction hn : B - o using Nat.strong_induction_on generalizing o with
  | _ n ih =>
    intro scratch hle hstop
    rcases Nat.lt_or_eq_of_le hle with hlt | rfl
    · have hnext := lt_blockEnd o
      have hblock : blockEnd o ≤ B := by
        simp only [blockEnd, kBlockSize] at haligned ⊢
        omega
      by_cases hskip : Skips F o
      · have hp : physAt F o = physAt F (blockEnd o) := by
          rw [physAt, if_pos hskip, if_pos (by omega)]
        rw [stream_congr hp] at hstop ⊢
        exact ih _ (by omega) rfl hblock hstop
      · by_cases hint : Intact F o
        · have hp : physAt F o = .ok (headerAt F o).type (fragmentAt F o)
              (o + kHeaderSize + (headerAt F o).length) := by
            rw [physAt, if_neg hskip, if_pos hint]
          have hend := le_trans hint.2.1 (Nat.min_le_left _ _)
          have hb := (physAt_bounds hp).1
          rw [stream_ok hp] at hstop ⊢
          obtain ⟨scratch', hstop'⟩ := assemble_rest hstop
          obtain ⟨ys, hys, hends⟩ := ih _ (by omega) rfl (by omega) hstop'
          refine ⟨⟨(headerAt F o).type, fragmentAt F o, _⟩ :: ys, ?_,
            forall_mem_cons.mpr ⟨le_trans hend hblock, hends⟩⟩
          rw [hys]
          rfl
        · have hp : physAt F o = .corruption := by rw [physAt, if_neg hskip, if_neg hint]
          rw [stream_corruption hp] at hstop
          cases scratch <;> cases hstop
    · exact ⟨[], rfl, by simp⟩

/-- **What the reader takes up behind the hole is not what it left before it**: the
record it returns ends later, or lacks bytes. -/
theorem skip_not_prefix {y : Fragment} {ys : List Fragment}
    (hstop : (assemble scratch (stream F x)).stop = .eof q)
    (hys : stream F x = (stream F B).after (y :: ys)) (hends : ∀ z ∈ y :: ys, z.last ≤ B)
    (hbody : scratch ≠ none → y.body ≠ []) (hne : (stream F B).fragments ≠ [])
    (hfits : ∀ scratch', (assemble scratch' (stream F B)).stop = .eof q →
      (scratch = none ↔ scratch' = none)) :
    ¬ (assemble scratch (stream F B)).records <+: (assemble scratch (stream F x)).records := by
  rw [hys] at hstop ⊢
  obtain ⟨before, scratch', hU, hplaces, hnone⟩ := assemble_after (y :: ys) hstop
  rw [hU] at hstop ⊢
  replace hstop : (assemble scratch' (stream F B)).stop = .eof q := hstop
  have hkind := hfits _ hstop
  have hnext : ∀ {p : Bytes} {e : Nat} {c : Contents},
      assemble scratch (stream F B) = c.cons p e → B < e := fun hc =>
    (assemble_agree (Agree.refl F) hc).1.1
  obtain ⟨p, e, c, hc, hsame⟩ : ∃ p e c, assemble scratch (stream F B) = Contents.cons p e c ∧
      (scratch ≠ none → ∃ w, p = scratch.getD [] ++ w ∧
        assemble scratch' (stream F B) = c.cons (scratch'.getD [] ++ w) e) := by
    cases scratch with
    | none =>
      obtain rfl := hkind.mp rfl
      cases hs : stream F B with
      | eof _ | corruption => simp [hs, Stream.fragments] at hne
      | frag t f e rest =>
        rw [hs] at hstop
        obtain ⟨p, e', c, hc⟩ := assemble_cons hstop
        exact ⟨p, e', c, hc, fun h => absurd rfl h⟩
    | some v =>
      cases scratch' with
      | none => exact nomatch hkind.mpr rfl
      | some v' =>
        obtain ⟨w, e, c, hw⟩ := assemble_some _ hstop
        exact ⟨_, e, c, hw v, fun _ => ⟨w, rfl, hw v'⟩⟩
  rw [hc]
  intro hpre
  cases before with
  | cons r before =>
    -- a record that ends before the hole is over
    obtain ⟨hr, -⟩ := cons_prefix_cons.mp hpre
    obtain ⟨z, hz, he⟩ := hplaces r mem_cons_self
    have hlast := hends z hz
    have hlt := hnext hc
    rw [← hr] at he
    dsimp only at he
    omega
  | nil =>
    -- the same record, without the bodies in between
    obtain ⟨hbytes, hsome⟩ := hnone rfl
    have hscratch : scratch ≠ none := fun h => hsome (.inr nofun) (hkind.mp h)
    obtain ⟨w, rfl, hc'⟩ := hsame hscratch
    rw [hc'] at hpre
    obtain ⟨hr, -⟩ := cons_prefix_cons.mp hpre
    have hlen := congrArg (fun r => r.1.length) hr
    have hpos := length_pos_iff.mpr (hbody hscratch)
    rw [hbytes] at hlen
    simp only [bodies, flatMap_cons, length_append] at hlen
    omega

end Skip

/-! ## The fragments of a log -/

theorem fragments_after (s : Stream) (ys : List Fragment) :
    (s.after ys).fragments = ys ++ s.fragments := by
  induction ys with
  | nil => rfl
  | cons y ys ih => exact congrArg (y :: ·) ih

/-- A fragment without a body begins its record. -/
def Fragment.Solid (y : Fragment) : Prop :=
  y.body = [] → y.type = kFullType ∨ y.type = kFirstType

section Write

variable {G X : Bytes}

theorem solid_encodeFrom (fuel : Nat) : ∀ {o off : Nat} {first : Bool} {payload : Bytes},
    InPosition o off → payload.length + (if kBlockSize - off = kHeaderSize then 2 else 1) ≤ fuel →
    (first = false → off = kBlockSize ∧ payload ≠ []) →
    G.drop o = encodeFrom fuel off first payload ++ X →
    ∃ ys, stream G o = (stream G (o + (encodeFrom fuel off first payload).length)).after ys ∧
      ∀ y ∈ ys, y.Solid := by
  induction fuel with
  | zero =>
    intro o off first payload _ hfuel
    split at hfuel <;> omega
  | succ fuel ih =>
    intro o off first payload hpos hfuel hlater hG
    obtain ⟨f, rest, e, -, hroom, hstream, hlast, hmore⟩ := stream_encodeFrom hpos hfuel hG
    have hsolid : (⟨fragmentType first (decide (rest = [])), f, e⟩ : Fragment).Solid := by
      intro hf
      cases first with
      | true => by_cases hnil : rest = [] <;> simp [fragmentType, hnil]
      | false =>
        obtain ⟨hoff, hne⟩ := hlater rfl
        exact absurd hf (hroom hoff hne)
    by_cases hnil : rest = []
    · refine ⟨[⟨_, f, e⟩], ?_, forall_mem_singleton.mpr hsolid⟩
      rw [hstream, ← hlast hnil]
      rfl
    · obtain ⟨hpos', hfuel', hG', hlen⟩ := hmore hnil
      obtain ⟨ys, hys, hall⟩ := ih hpos' (by simpa [kHeaderSize] using hfuel')
        (fun _ => ⟨rfl, hnil⟩) hG'
      refine ⟨⟨_, f, e⟩ :: ys, ?_, forall_mem_cons.mpr ⟨hsolid, hall⟩⟩
      rw [hstream, hys, hlen]
      rfl

theorem solid_encodeRecords (ps : List Bytes) : ∀ {o : Nat}, G.drop o = encodeRecords o ps ++ X →
    ∃ ys, stream G o = (stream G (o + (encodeRecords o ps).length)).after ys ∧
      ∀ y ∈ ys, y.Solid := by
  induction ps with
  | nil => exact fun _ => ⟨[], rfl, by simp⟩
  | cons p ps ih =>
    intro o hG
    simp only [encodeRecords] at hG ⊢
    rw [append_assoc] at hG
    obtain ⟨ys, hys, hsolid⟩ := solid_encodeFrom (p.length + 2) (.inl rfl)
      (by split <;> omega) (fun h => absurd h (by decide)) hG
    have hnext : G.drop (o + (encodeRecord p o).length) =
        encodeRecords (o + (encodeRecord p o).length) ps ++ X := by
      rw [← drop_drop, hG, drop_left' rfl]
    obtain ⟨zs, hzs, hsolid'⟩ := ih hnext
    refine ⟨ys ++ zs, ?_, forall_mem_append.mpr ⟨hsolid, hsolid'⟩⟩
    rw [hys, ← encodeRecord, hzs, length_append, ← Nat.add_assoc]
    clear hys hsolid
    induction ys with
    | nil => rfl
    | cons y ys ih => exact congrArg (Stream.frag _ _ _) ih

theorem solid_of_mem {ps : List Bytes} {y : Fragment}
    (hy : y ∈ (stream (encodeRecords 0 ps) 0).fragments) : y.Solid := by
  obtain ⟨ys, hys, hsolid⟩ := solid_encodeRecords (G := encodeRecords 0 ps) (X := []) ps (o := 0)
    (by simp)
  rw [hys, Nat.zero_add, fragments_after, stream_eof (physAt_end le_rfl)] at hy
  exact hsolid y (by simpa [Stream.fragments] using hy)

end Write

/-! ## The hole -/

/-- The first changed fragment `y` starts at `x`, with `records` before it and
`scratch` of the record it belongs to. -/
structure Hole (F G : Bytes) (x : Nat) (records : List (Bytes × Nat)) (scratch : Option Bytes)
    (y : Fragment) : Prop where
  left : contents F = (assemble scratch (stream F x)).prepend records
  right : contents G = (assemble scratch (stream G x)).prepend records
  damaged : Damaged F G x
  skips : ¬ Skips F x
  phys : physAt F x = .ok y.type y.body y.last
  begins : Begins F x ↔ scratch = none
  body : scratch ≠ none → y.body ≠ []

theorem physAt_ok {x : Nat} {y : Fragment} (hskip : ¬ Skips F x)
    (hp : physAt F x = .ok y.type y.body y.last) :
    Intact F x ∧ y.type = (headerAt F x).type ∧
      y.last = x + kHeaderSize + (headerAt F x).length := by
  rw [physAt, if_neg hskip] at hp
  split at hp
  · next hint =>
    obtain ⟨ht, -, he⟩ := Phys.ok.inj hp
    exact ⟨hint, ht.symm, he.symm⟩
  · cases hp

section Hole

variable {F G : Bytes} {x B q : Nat} {records : List (Bytes × Nat)} {scratch : Option Bytes}
  {y : Fragment}

/-- **Reading reaches the hole** in both files with the same records and the same state. -/
theorem Blanks.exists_hole (h : Blanks F G) (hstop : (contents F).stop = .eof q)
    (hsolid : ∀ y ∈ (stream F 0).fragments, y.Solid) (hx : FirstDamaged F G x) :
    ∃ records scratch y, Hole F G x records scratch y := by
  rw [FirstDamaged, starts, find?_map] at hx
  obtain ⟨y, hy, rfl⟩ := Option.map_eq_some_iff.mp hx
  obtain ⟨hd, ys, zs, hF, hys⟩ := find?_eq_some_iff_append.mp hy
  replace hd : Damaged F G y.start := by simpa using hd
  obtain ⟨o, hF₁, hG₁, hzs⟩ := h.stream_walk ys hF fun z hz => by simpa using hys z hz
  obtain ⟨hp, -⟩ := fragments_cons hzs
  obtain ⟨s, he, -, hskip, hFs, hGs⟩ := physAt_start hp
  obtain rfl : y.start = s := by
    rw [Fragment.start, he]
    omega
  rw [stream_congr (hGs (Blanks.refl F))] at hF₁
  rw [stream_congr (hGs h)] at hG₁
  rw [contents, contentsFrom, hF₁] at hstop
  obtain ⟨before, scratch, hU, -, -⟩ := assemble_after ys hstop
  have hleft : contents F = (assemble scratch (stream F y.start)).prepend before := by
    rw [contents, contentsFrom, hF₁, hU]
  rw [hU, stream_ok hFs] at hstop
  have hbegins := begins_iff (assemble_fits hstop)
  refine ⟨before, scratch, y, hleft, ?_, hd, hskip, hFs, ?_, fun hne hnil => ?_⟩
  · rw [contents, contentsFrom, hG₁, hU]
  · rw [← hbegins, Begins, (physAt_ok hskip hFs).2.1]
  · exact hne (hbegins.mp (hsolid y (by rw [hF]; simp) hnil))

theorem Blanks.contents_undamaged (h : Blanks F G) (hstop : (contents F).stop = .eof q)
    (hx : ∀ x, ¬ FirstDamaged F G x) : (contents G).records = (contents F).records := by
  have hnone : ∀ y ∈ (stream F 0).fragments, ¬ Damaged F G y.start := by
    have hfind := Option.eq_none_iff_forall_ne_some.mpr hx
    intro y hy
    simpa using find?_eq_none.mp hfind y.start (mem_map_of_mem hy)
  obtain ⟨o, hF, hG, hnil⟩ := @Blanks.stream_walk F G h [] _ 0 (append_nil _).symm hnone
  rw [contents, contentsFrom, hF] at hstop
  obtain ⟨before, scratch, hU, -, -⟩ := assemble_after _ hstop
  rw [hU] at hstop
  have hend : ∃ q', physAt F o = .eof q' := by
    cases hp : physAt F o with
    | eof q' => exact ⟨q', rfl⟩
    | corruption =>
      rw [stream_corruption hp] at hstop
      cases scratch <;> cases hstop
    | ok t f e =>
      rw [stream_ok hp] at hnil
      cases hnil
  obtain ⟨q', hp⟩ := hend
  rw [contents, contents, contentsFrom, contentsFrom, hF, hG, hU, hU, stream_eof hp,
    stream_eof (h.physAt_eof hp)]

theorem Hole.last_le (h : Hole F G x records scratch y) : y.last ≤ blockEnd x := by
  obtain ⟨hint, -, he⟩ := physAt_ok h.skips h.phys
  rw [he]
  exact le_trans hint.2.1 (Nat.min_le_left _ _)

theorem FirstHeader.blockEnd_le (h : FirstHeader G x B) : blockEnd x ≤ B := by
  have hlt := h.behind
  have hal := h.aligned
  simp only [blockEnd, kBlockSize] at hal ⊢
  omega

theorem FirstHeader.bufferEnd (h : FirstHeader G x B) : B + kHeaderSize ≤ bufferEnd G B := by
  have hroom := h.room
  have hb := blockEnd_of_aligned (p := 0) h.aligned (by decide)
  rw [Nat.add_zero] at hb
  rw [Log.bufferEnd, hb]
  exact Nat.le_min.mpr ⟨Nat.add_le_add_left (by decide) B, hroom⟩

theorem Hole.through (h : Hole F G x records scratch y) (hblank : Blanks F G)
    (hstop : (contents F).stop = .eof q) (hB : FirstHeader G x B) :
    ∃ ys z, stream F x = (stream F B).after (y :: ys) ∧ (∀ z ∈ y :: ys, z.last ≤ B) ∧
      stream F B = .frag (headerAt F B).type (fragmentAt F B) z (stream F z) ∧
      ∃ scratch', (assemble scratch' (stream F B)).stop = .eof q := by
  have hlast := le_trans h.last_le hB.blockEnd_le
  rw [h.left] at hstop
  replace hstop : (assemble scratch (stream F x)).stop = .eof q := hstop
  have hroom := hB.bufferEnd
  rw [hblank.bufferEnd] at hroom
  have hle : B ≤ F.length := le_trans (Nat.le_add_right B kHeaderSize) (hblank.length ▸ hB.room)
  rw [stream_ok h.phys] at hstop
  obtain ⟨scratch₁, hstop₁⟩ := assemble_rest hstop
  obtain ⟨ys, hys, hends⟩ := stream_through hB.aligned hle hlast hstop₁
  have hskip : ¬ Skips F B := by
    rintro (hs | hs)
    · omega
    · exact hB.header (hblank.headerAt_zero hs)
  rw [hys] at hstop₁
  obtain ⟨_, scratch', hU, -, -⟩ := assemble_after ys hstop₁
  rw [hU] at hstop₁
  have hint : Intact F B := by
    by_contra hint
    have hp : physAt F B = .corruption := by rw [physAt, if_neg hskip, if_neg hint]
    rw [stream_corruption hp] at hstop₁
    cases scratch' <;> cases hstop₁
  have hp : physAt F B = .ok (headerAt F B).type (fragmentAt F B)
      (B + kHeaderSize + (headerAt F B).length) := by
    rw [physAt, if_neg hskip, if_pos hint]
  refine ⟨ys, _, ?_, forall_mem_cons.mpr ⟨hlast, hends⟩, stream_ok hp, scratch', hstop₁⟩
  rw [stream_ok h.phys, hys]
  rfl

end Hole

/-! ## The zeros reach no further -/

theorem take_zeroed (F : Bytes) (a b : Nat) : (zeroed F a b).take a = F.take a := by
  refine ext_getElem (by simp) fun i h₁ h₂ => ?_
  have hi : i < a := by
    rw [length_take] at h₂
    omega
  simp [zeroed, Nat.not_le_of_lt hi]

theorem drop_zeroed {a b n : Nat} (h : b ≤ n) : (zeroed F a b).drop n = F.drop n := by
  refine ext_getElem (by simp) fun i h₁ h₂ => ?_
  have hi : ¬ n + i < b := by omega
  simp [zeroed, hi]

section Zeroed

variable {F : Bytes} {a b x B q : Nat} {records : List (Bytes × Nat)} {scratch : Option Bytes}
  {y : Fragment}

variable (h : Hole F (zeroed F a b) x records scratch y)
include h

theorem Hole.drop_eq (hB : FirstHeader (zeroed F a b) x B) (hd : ¬ Damaged F (zeroed F a b) B) :
    (zeroed F a b).drop B = F.drop B := by
  have hlast := le_trans h.last_le hB.blockEnd_le
  rw [(physAt_ok h.skips h.phys).2.2] at hlast
  -- the zeros begin before the header
  have ha : a < B := by
    by_contra hle
    refine h.damaged ?_
    have hcut : ∀ H : Bytes, (H.drop x).take (kHeaderSize + (headerAt F x).length) =
        ((H.take a).drop x).take (kHeaderSize + (headerAt F x).length) := by
      intro H
      rw [drop_take, take_take, min_eq_left (by omega)]
    rw [hcut F, hcut (zeroed F a b), take_zeroed]
  -- and end inside it at the latest
  obtain ⟨i, hi, hne⟩ : ∃ i < kHeaderSize, (zeroed F a b).getD (B + i) 0 ≠ 0 := by
    by_contra hall
    push Not at hall
    exact hB.header (headerAt_eq_zero.mpr hall)
  have hb : b ≤ B + (kHeaderSize + (headerAt F B).length) := by
    rw [getD_zeroed] at hne
    split at hne
    · exact absurd rfl hne
    · omega
  rw [← take_append_drop (kHeaderSize + (headerAt F B).length) ((zeroed F a b).drop B),
    ← not_not.mp hd, drop_drop, drop_zeroed hb, ← drop_drop, take_append_drop]

/-- **The reader goes on** with what the log has there. -/
theorem Hole.stream_eq
    (hz : headerAt (zeroed F a b) x = zeroHeader) (hB : FirstHeader (zeroed F a b) x B)
    (hd : ¬ Damaged F (zeroed F a b) B) : stream (zeroed F a b) x = stream F B := by
  rw [stream_congr (hB.physAt hz)]
  exact stream_suffix (length_zeroed F a b) (h.drop_eq hB hd) (Nat.le_refl B)

/-- Records in the order of the log: what is found behind the hole does not fit. -/
theorem Hole.misfit (hstop : (contents F).stop = .eof q)
    (hpre : (contents (zeroed F a b)).records <+: (contents F).records)
    (hz : headerAt (zeroed F a b) x = zeroHeader) (hB : FirstHeader (zeroed F a b) x B)
    (hd : ¬ Damaged F (zeroed F a b) B) : Begins F B ↔ ¬ Begins F x := by
  by_contra hkind
  obtain ⟨ys, z, hys, hends, hnext, -⟩ := h.through (blanks_zeroed F a b) hstop hB
  rw [h.left] at hstop
  refine skip_not_prefix hstop hys hends h.body (by rw [hnext]; exact nofun) ?_ ?_
  · intro scratch' hstop'
    rw [hnext] at hstop'
    rw [← h.begins, ← begins_iff (assemble_fits hstop')]
    exact (not_iff_not.mp (not_iff.mp hkind)).symm
  · rw [h.left, h.right, h.stream_eq hz hB hd] at hpre
    exact (prefix_append_right_inj _).mp hpre

theorem Hole.nothing (hstop : (contents F).stop = .eof q) (hx : FirstDamaged F (zeroed F a b) x)
    (hstops : Stops F (zeroed F a b)) (hdet : Detected F (zeroed F a b)) :
    (assemble scratch (stream (zeroed F a b) x)).records = [] := by
  have hroom : x + kHeaderSize ≤ bufferEnd (zeroed F a b) x := by
    rw [(blanks_zeroed F a b).bufferEnd]
    by_contra hlt
    exact h.skips (.inl (by omega))
  obtain ⟨hcrc, hcrcB⟩ := hdet x hx
  by_cases hz : headerAt (zeroed F a b) x = zeroHeader
  · by_cases hB : ∃ B, FirstHeader (zeroed F a b) x B
    · obtain ⟨B, hB⟩ := hB
      by_cases hd : Damaged F (zeroed F a b) B
      · rw [stream_congr (hB.physAt hz),
          stream_corruption (physAt_corruption hB.header hB.bufferEnd (hcrcB B hB hd))]
        cases scratch <;> rfl
      · obtain ⟨-, z, -, -, hnext, scratch', hstop'⟩ := h.through (blanks_zeroed F a b) hstop hB
        rw [hnext] at hstop'
        have hfits := assemble_fits hstop'
        have hkind := (hstops x hx hz B hB).resolve_left hd
        have hfail : assembleFragment scratch (headerAt F B).type (fragmentAt F B) = .fail := by
          rw [assembleFragment_fail hfits, ← h.begins, ← begins_iff hfits, not_iff]
          exact hkind.symm
        rw [h.stream_eq hz hB hd, hnext, assemble_frag, hfail]
    · obtain ⟨q, hq⟩ := physAt_blank (fun B hB' => hB ⟨B, hB'⟩) hz
      rw [stream_eof hq]
      cases scratch <;> rfl
  · rw [stream_corruption (physAt_corruption hz hroom (hcrc hz))]
    cases scratch <;> rfl

end Zeroed

/-! ## Order -/

theorem inOrder_iff {G : Bytes} {ps : List Bytes} :
    InOrder G ps ↔ (contents G).records <+: placed 0 ps := by
  obtain ⟨last, r, hr⟩ := readsAt_contents G
  constructor
  · rintro ⟨k, last', r', hr'⟩
    have hsame : (contents G).records = (placed 0 ps).take k := congrArg Prod.fst (hr.unique hr')
    rw [hsame]
    exact take_prefix k _
  · intro h
    rw [prefix_iff_eq_take] at h
    exact ⟨_, last, r, h ▸ hr⟩

/-- **A hole in a log.**  Where a range of a log is zero, the records read are those of
the log up to one of them only if the fragment found behind the hole is changed
too or does not fit; and if so, and no CRC agrees by chance with what the zeros
have left of a fragment, they are, and with them the payloads. -/
theorem zeroed_prefix (ps : List Bytes) (a b : Nat) :
    (InOrder (zeroed (encodeRecords 0 ps) a b) ps →
      Stops (encodeRecords 0 ps) (zeroed (encodeRecords 0 ps) a b)) ∧
    (Stops (encodeRecords 0 ps) (zeroed (encodeRecords 0 ps) a b) →
      Detected (encodeRecords 0 ps) (zeroed (encodeRecords 0 ps) a b) →
      InOrder (zeroed (encodeRecords 0 ps) a b) ps ∧
        ∃ k last r, Reads (zeroed (encodeRecords 0 ps) a b) (ps.take k) last r) := by
  have hwhole := contents_encodeRecords ps
  have hstop := congrArg Contents.stop hwhole
  have hplaced : placed 0 ps = (contents (encodeRecords 0 ps)).records := by rw [hwhole]
  have hblank := blanks_zeroed (encodeRecords 0 ps) a b
  have hhole := fun x => hblank.exists_hole (x := x) hstop fun y => solid_of_mem
  rw [inOrder_iff, hplaced]
  constructor
  · intro hpre x hx hz B hB
    obtain ⟨records, scratch, y, hole⟩ := hhole x hx
    exact or_iff_not_imp_left.mpr (hole.misfit hstop hpre hz hB)
  · intro hstops hdet
    have hpre : (contents (zeroed (encodeRecords 0 ps) a b)).records <+:
        (contents (encodeRecords 0 ps)).records := by
      by_cases hx : ∃ x, FirstDamaged (encodeRecords 0 ps) (zeroed (encodeRecords 0 ps) a b) x
      · obtain ⟨x, hx⟩ := hx
        obtain ⟨records, scratch, y, hole⟩ := hhole x hx
        have hnil := hole.nothing hstop hx hstops hdet
        rw [hole.left, hole.right, Contents.prepend, Contents.prepend, hnil, List.append_nil]
        exact List.prefix_append _ _
      · rw [hblank.contents_undamaged hstop fun x h => hx ⟨x, h⟩]
    refine ⟨hpre, ?_⟩
    obtain ⟨r, hr, -⟩ := reads_contents (zeroed (encodeRecords 0 ps) a b)
    have hps := hpre.map Prod.fst
    rw [← hplaced, map_fst_placed, List.prefix_iff_eq_take] at hps
    exact ⟨_, _, r, hps ▸ hr⟩

/-! ## A block that was not written -/

theorem encodeFrom_room {fuel off : Nat} {first : Bool} {payload : Bytes}
    (h : off + kHeaderSize + payload.length ≤ kBlockSize) :
    encodeFrom (fuel + 1) off first payload =
      encodeHeader (fragmentType first true) payload ++ payload := by
  have hroom : ¬ kBlockSize - off < kHeaderSize := by omega
  have htake : payload.take (kBlockSize - off - kHeaderSize) = payload :=
    take_of_length_le (by omega)
  have hdrop : payload.drop (kBlockSize - off - kHeaderSize) = [] := drop_eq_nil_of_le (by omega)
  rw [encodeFrom]
  simp only [if_neg hroom, htake, hdrop, if_true, decide_true, nil_append, append_nil]

theorem encodeRecords_block {value : Bytes} (h : value.length = kBlockSize - kHeaderSize) :
    encodeRecords 0 [value, []] =
      encodeHeader kFullType value ++ value ++ (encodeHeader kFullType [] ++ []) := by
  have hfirst : encodeRecord value 0 = encodeHeader kFullType value ++ value := by
    refine encodeFrom_room ?_
    rw [h]
    decide
  have hlen : (encodeRecord value 0).length = kBlockSize := by
    rw [hfirst, length_append, length_encodeHeader, h]
    rfl
  have hsecond : encodeRecord [] kBlockSize = encodeHeader kFullType [] ++ [] :=
    encodeFrom_room (by decide)
  simp only [encodeRecords, hlen, Nat.zero_add, hsecond]
  rw [hfirst, append_nil]

theorem reads_block {value : Bytes} (h : value.length = kBlockSize - kHeaderSize) :
    ∃ r, Reads (zeroed (encodeRecords 0 [value, []]) 0 kBlockSize) [[]] .eof r := by
  have hF := encodeRecords_block h
  have hlen : (encodeRecords 0 [value, []]).length = kBlockSize + kHeaderSize := by
    rw [hF]
    simp only [length_append, length_encodeHeader, length_nil, h]
    rfl
  set G := zeroed (encodeRecords 0 [value, []]) 0 kBlockSize with hG
  have hGlen : G.length = kBlockSize + kHeaderSize := by rw [hG, length_zeroed, hlen]
  have hzero : headerAt G 0 = zeroHeader := by
    refine headerAt_eq_zero.mpr fun i hi => ?_
    rw [hG, getD_zeroed, if_pos]
    simp only [kHeaderSize, kBlockSize] at hi ⊢
    omega
  have hskip : physAt G 0 = physAt G kBlockSize := by
    have hb : blockEnd 0 = kBlockSize := rfl
    have hskips : Skips G 0 := .inr hzero
    rw [physAt, if_pos hskips, hb, if_pos (by omega)]
  have hdrop : G.drop kBlockSize = encodeHeader kFullType [] ++ ([] ++ []) := by
    rw [hG, drop_zeroed le_rfl, hF]
    refine drop_left' ?_
    rw [length_append, length_encodeHeader, h]
    rfl
  have hp : physAt G kBlockSize = .ok kFullType [] (kBlockSize + kHeaderSize) :=
    physAt_encode (by decide) (by decide) hdrop
  have hcontents : contents G = ⟨[([], kBlockSize + kHeaderSize)],
      .eof (kBlockSize + kHeaderSize)⟩ := by
    rw [contents, contentsFrom, stream_ok (hskip.trans hp),
      stream_eof (physAt_end (Nat.le_of_eq hGlen))]
    rfl
  obtain ⟨r, hr, -⟩ := reads_contents G
  rw [hcontents] at hr
  exact ⟨r, hr⟩

/-- **A hole that is jumped over.**  The first block of a log of two records was never
written; a reader returns the second record, and ends as if there were no other. -/
theorem zeroed_block_skipped :
    (∃ r, Reads (zeroed (encodeRecords 0 [List.replicate 32759 0xAA, []]) 0 32768) [[]] .eof r) ∧
    ¬ [[]] <+: [List.replicate 32759 (0xAA : UInt8), []] := by
  refine ⟨reads_block List.length_replicate, fun h => ?_⟩
  have hlen := congrArg List.length (List.cons_prefix_cons.mp h).1
  rw [List.length_replicate] at hlen
  exact absurd hlen (by decide)

end BedrockKV.Log
