import Anubis.Common.Runs
import Anubis.Raft.Model.TransportAuth
import Mathlib.Data.List.Dedup

/-!
# No frame is accepted twice

A window records the sequence numbers that it refuses: those it has accepted, and
all that are too far below the highest. A frame passes for two minutes at most, a
minute before its timestamp and a minute after it, and what a receiver knows of an
epoch or an origin is dropped after more than two minutes without a frame. So while
a frame can pass, its window is there: unless it was evicted because too many
epochs or origins were seen in two minutes.
-/

namespace Anubis.Transport

open Instant List Option AList Runs

/-! ## Windows -/

variable {i epoch : ℕ}

namespace ReplayWindow

variable {w : ReplayWindow} {n d seq s : ℕ}

/-- The bit of a distance from the highest number. -/
def bit (w : ReplayWindow) (d : ℕ) : Bool := (w.bits (d / 64)).getLsbD (d % 64)

/-- **The numbers a window refuses.** -/
def Recorded (w : ReplayWindow) (s : ℕ) : Prop :=
  s ≤ w.highest ∧ (replayWindowBits ≤ w.highest - s ∨ w.bit (w.highest - s) = true)

/-- A loop downwards that reads no word above the one it writes has the words as
they were. -/
theorem sweep_eq {lo : ℕ} {word : (ℕ → BitVec 64) → ℕ → BitVec 64}
    (hword : ∀ bits bits' i, (∀ k ≤ i, bits k = bits' k) → word bits i = word bits' i)
    (bits : ℕ → BitVec 64)
    (hi : i < 64) : sweep lo word bits i = if lo ≤ i then word bits i else bits i := by
  have hloop : ∀ (len lo i : ℕ),
      (range' lo len).foldr (fun i bits => Function.update bits i (word bits i)) bits i =
        if lo ≤ i ∧ i < lo + len then word bits i else bits i := by
    intro len
    induction len with
    | zero => intro lo i; rw [if_neg (by omega)]; rfl
    | succ len ih =>
      intro lo i
      rw [range'_succ, foldr_cons, Function.update_apply]
      split
      · next h =>
        subst h
        rw [if_pos (by omega)]
        exact hword _ _ _ fun k hk => (ih _ k).trans (if_neg (by omega))
      · next h =>
        rw [ih]
        exact if_congr (by omega) rfl rfl
  unfold sweep
  rw [hloop]
  exact if_congr (by omega) rfl rfl

theorem sweep_fromWord (words : ℕ) (bits : ℕ → BitVec 64) (hi : i < 64) :
    (if 0 < words then sweep 0 (fromWord words) bits else bits) i = fromWord words bits i := by
  split
  · have hword : ∀ bits bits' : ℕ → BitVec 64, ∀ i, (∀ k ≤ i, bits k = bits' k) →
        fromWord words bits i = fromWord words bits' i := by
      intro bits bits' i h
      unfold fromWord
      rw [h _ (Nat.sub_le i words)]
    rw [sweep_eq hword bits hi, if_pos (Nat.zero_le i)]
  · next h =>
    obtain rfl : words = 0 := by omega
    simp [fromWord]

theorem sweep_fromBits (m : ℕ) (bits : ℕ → BitVec 64) (hi : i < 64) :
    sweep 1 (fromBits m) bits i = if 1 ≤ i then fromBits m bits i else bits i := by
  refine sweep_eq (fun bits bits' i h => ?_) bits hi
  unfold fromBits
  rw [h i (Nat.le_refl i), h (i - 1) (Nat.sub_le i 1)]

/-- A move by less than a word takes the lower bits of a word from the one below. -/
theorem getLsbD_moved {m r : ℕ} (hm : m < 64) (hi : i < 64) (hr : r < 64) (b : ℕ → BitVec 64) :
    (Function.update (sweep 1 (fromBits m) b) 0 (sweep 1 (fromBits m) b 0 <<< m) i).getLsbD r =
      if m ≤ r then (b i).getLsbD (r - m) else decide (1 ≤ i) &&
        (b (i - 1)).getLsbD (64 - m + r) := by
  rw [Function.update_apply, sweep_fromBits _ _ hi, sweep_fromBits _ _ (by decide),
    if_neg (show ¬1 ≤ 0 by decide)]
  have hleft : ∀ x : BitVec 64, (x <<< m).getLsbD r = if m ≤ r then x.getLsbD
    (r - m) else false := by
    intro x
    rw [BitVec.getLsbD_shiftLeft, decide_eq_true hr, Bool.true_and]
    split
    · next h => rw [decide_eq_false (not_lt.mpr h), Bool.not_false, Bool.true_and]
    · next h => rw [decide_eq_true (not_le.mp h), Bool.not_true, Bool.false_and]
  rcases Nat.eq_zero_or_pos i with rfl | hpos
  · rw [if_pos rfl, hleft]
    rfl
  · rw [if_neg (by omega), if_pos (Nat.succ_le_of_lt hpos), fromBits, BitVec.getLsbD_or, hleft,
      BitVec.getLsbD_ushiftRight,
      decide_eq_true (Nat.succ_le_of_lt hpos), Bool.true_and]
    split
    · rw [BitVec.getLsbD_of_ge _ _ (show 64 ≤ 64 - m + r by omega), Bool.or_false]
    · rw [Bool.false_or]

/-- **A shift moves every bit up**, out of the window or within it. -/
theorem bit_shift (hd : d < replayWindowBits) :
    (w.shift n).bit d = (decide (n ≤ d) && w.bit (d - n)) := by
  have hbits : replayWindowBits = 4096 := rfl
  by_cases hn : replayWindowBits ≤ n
  · rw [shift, if_pos hn, decide_eq_false (by omega), Bool.false_and]
    exact BitVec.getLsbD_zero
  have hi : d / 64 < 64 := by omega
  have hfrom : ∀ i < 64, ∀ r,
    ((if 0 < n / 64 then sweep 0 (fromWord (n / 64)) w.bits else w.bits) i).getLsbD r =
      (decide (n / 64 ≤ i) && (w.bits (i - n / 64)).getLsbD r) := by
    intro i hi r
    rw [sweep_fromWord _ _ hi, fromWord]
    split <;> simp [*]
  -- where the bit comes from
  have hplace : ∀ (c : Prop) [Decidable c] (i r : ℕ), (c ↔ n ≤ d) →
    (n ≤ d → i = (d - n) / 64 ∧ r = (d - n) % 64) →
      (decide c && (w.bits i).getLsbD r) =
      (decide (n ≤ d) && (w.bits ((d - n) / 64)).getLsbD ((d - n) % 64)) := by
    intro c _ i r hc heq
    by_cases hle : n ≤ d
    · rw [decide_eq_true hle, decide_eq_true (hc.mpr hle), (heq hle).1, (heq hle).2]
    · rw [decide_eq_false hle, decide_eq_false (mt hc.mp hle), Bool.false_and, Bool.false_and]
  unfold bit shift
  rw [if_neg hn]
  dsimp only
  by_cases hm : 0 < n % 64
  · rw [if_pos hm, getLsbD_moved (by omega) hi (by omega), hfrom _ hi, hfrom _ (by omega)]
    split
    · exact hplace _ _ _ (by omega) (by omega)
    · rw [← Bool.and_assoc, ← Bool.decide_and]
      exact hplace _ _ _ (by omega) (by omega)
  · rw [if_neg hm, hfrom _ hi]
    exact hplace _ _ _ (by omega) (by omega)

/-- One more bit. -/
theorem bit_set {e : ℕ} {bits : ℕ → BitVec 64} {seen : ℤ} {top : ℕ} :
    bit ⟨top, Function.update bits (e / 64) (bits (e / 64) ||| 1#64 <<< (e % 64)), seen⟩ d =
      (bit ⟨top, bits, seen⟩ d || decide (d = e)) := by
  have hone : (1#64 <<< (e % 64)).getLsbD (d % 64) = decide (d % 64 = e % 64) := by
    rw [← BitVec.twoPow_eq, BitVec.getLsbD_twoPow, Bool.eq_iff_iff]
    simp only [Bool.and_eq_true, decide_eq_true_eq]
    omega
  unfold bit
  dsimp only
  rw [Function.update_apply]
  split
  · next h =>
    rw [BitVec.getLsbD_or, hone, h]
    congr 1
    exact decide_eq_decide.mpr (by omega)
  · next h => rw [decide_eq_false (by omega), Bool.or_false]

/-- **What a window records**: the number it was asked about, and what is too far
below it. It says yes to what it had not recorded. -/
theorem accept_spec (w : ReplayWindow) (seq : ℕ) :
    ((w.accept seq).2 = true ↔ ¬w.Recorded seq) ∧ (w.accept seq).1.lastSeen = w.lastSeen ∧
      ∀ s, (w.accept seq).1.Recorded s ↔ w.Recorded s ∨ s = seq ∨ s + replayWindowBits ≤ seq := by
  -- nothing is new about a number that is refused
  have hrefused : w.Recorded seq → ∀ s, w.Recorded s ↔ w.Recorded s ∨ s = seq ∨
    s + replayWindowBits ≤ seq := by
    refine fun hrec s => (or_iff_left_of_imp ?_).symm
    rintro (rfl | hs)
    · exact hrec
    · exact ⟨by have := hrec.1; omega, .inl (by have := hrec.1; omega)⟩
  unfold accept
  split
  · next hlt =>
    have hseen : ∀ n, (w.shift n).lastSeen = w.lastSeen := by
      intro n
      unfold shift
      split <;> rfl
    refine ⟨iff_of_true rfl fun h => absurd h.1 (not_le.mpr hlt), hseen _, fun s => ?_⟩
    have hbit : bit ⟨seq, Function.update (w.shift (seq - w.highest)).bits 0
          ((w.shift (seq - w.highest)).bits 0 ||| 1#64), (w.shift (seq - w.highest)).lastSeen⟩
          (seq - s) =
        ((w.shift (seq - w.highest)).bit (seq - s) || decide (seq - s = 0)) :=
      bit_set (e := 0)
    unfold Recorded
    dsimp only
    rw [hbit]
    by_cases hfar : s + replayWindowBits ≤ seq
    · exact iff_of_true ⟨by omega, .inl (by omega)⟩ (.inr (.inr hfar))
    · by_cases hle : s ≤ seq
      · rw [bit_shift (by omega), Bool.or_eq_true, Bool.and_eq_true, decide_eq_true_eq,
          decide_eq_true_eq,
          show seq - s - (seq - w.highest) = w.highest - s by omega]
        constructor
        · rintro ⟨-, h | ⟨h, hset⟩ | h⟩
          · omega
          · exact .inl ⟨by omega, .inr hset⟩
          · exact .inr (.inl (by omega))
        · rintro (⟨h, hout | hset⟩ | h | h)
          · omega
          · exact ⟨hle, .inr (.inl ⟨by omega, hset⟩)⟩
          · exact ⟨hle, .inr (.inr (by omega))⟩
          · exact absurd h hfar
      · exact iff_of_false (fun h => hle h.1) (by rintro (⟨h, -⟩ | h | h) <;> omega)
  · next hge =>
    dsimp only
    split
    · next hfar =>
      have hrec : w.Recorded seq := ⟨not_lt.mp hge, .inl hfar⟩
      exact ⟨iff_of_false nofun (not_not.mpr hrec), rfl, hrefused hrec⟩
    · split
      · next hset =>
        have hrec : w.Recorded seq := ⟨not_lt.mp hge, .inr hset⟩
        exact ⟨iff_of_false nofun (not_not.mpr hrec), rfl, hrefused hrec⟩
      · next hfar hset =>
        refine ⟨iff_of_true rfl fun h => h.2.elim hfar hset, rfl, fun s => ?_⟩
        unfold Recorded
        dsimp only
        rw [bit_set, Bool.or_eq_true, decide_eq_true_eq]
        constructor
        · rintro ⟨hle, h | h | h⟩
          · exact .inl ⟨hle, .inl h⟩
          · exact .inl ⟨hle, .inr h⟩
          · exact .inr (.inl (by omega))
        · rintro (⟨hle, h⟩ | rfl | h)
          · exact ⟨hle, h.imp_right .inl⟩
          · exact ⟨not_lt.mp hge, .inr (.inr rfl)⟩
          · exact ⟨by omega, .inl (by omega)⟩

/-- A window and the numbers it accepted, after one more was presented. -/
def present (h : ReplayWindow × List ℕ) (seq : ℕ) : ReplayWindow × List ℕ :=
  ((h.1.accept seq).1, if (h.1.accept seq).2 then seq :: h.2 else h.2)

/-- A window stands for the numbers it accepted. -/
def StandsFor (h : ReplayWindow × List ℕ) : Prop :=
  ∀ s, h.1.Recorded s ↔ ∃ a ∈ h.2, s = a ∨ s + replayWindowBits ≤ a

theorem StandsFor.present {h : ReplayWindow × List ℕ} (hh : StandsFor h) (seq : ℕ) :
    StandsFor (present h seq) := by
  obtain ⟨hnew, -, hrec⟩ := h.1.accept_spec seq
  intro s
  unfold ReplayWindow.present
  rw [hrec, hh]
  split
  · simp [or_comm]
  · next hold =>
    obtain ⟨a, ha, hseq⟩ := (hh seq).mp (not_not.mp (mt hnew.mpr hold))
    exact or_iff_left_of_imp fun hs => ⟨a, ha, by omega⟩

/-- **The bitmap is a set**: whatever was presented to a window, it accepts a number
exactly if it did not before and it is above the highest accepted less the size. -/
theorem accepts_iff_new (seqs : List ℕ) (seq : ℕ) :
    ((seqs.foldl present ({}, [])).1.accept seq).2 = true ↔ seq ∉ (seqs.foldl present ({}, [])).2 ∧
      ∀ a ∈ (seqs.foldl present ({}, [])).2, a < seq + replayWindowBits := by
  have hempty : StandsFor ({}, []) := by
    simp [StandsFor, Recorded, bit, replayWindowBits]
  have hrun : StandsFor (seqs.foldl present ({}, [])) :=
    foldlRecOn seqs present hempty fun _ h s _ => h.present s
  rw [((seqs.foldl present ({}, [])).1.accept_spec seq).1, hrun seq]
  push Not
  exact ⟨fun h => ⟨fun hmem => (h seq hmem).1 rfl, fun a ha => (h a ha).2⟩,
    fun h a ha => ⟨fun heq => h.1 (heq ▸ ha), h.2 a ha⟩⟩

end ReplayWindow

/-! ## Room -/

/-- The keys that were seen in two minutes. -/
def recent {α : Type} [DecidableEq α] (now : ℤ) (seen : List (α × ℤ)) : List α :=
  ((seen.filter fun x => now - x.2 ≤ 2 * transportMaxSkew).map Prod.fst).dedup

section Room

variable {α V : Type} [DecidableEq α] {lastSeen : V → ℤ} {limit : ℕ} {first : α} {begin : ℕ}
    {now : ℤ} {key k : α}
  {m : Dict α V} {v : V}

theorem mem_recent {seen : List (α × ℤ)} :
    k ∈ recent now seen ↔ ∃ t, (k, t) ∈ seen ∧ now - t ≤ 2 * transportMaxSkew := by
  simp [recent]

/-- Making room adds nothing. -/
theorem lookup_of_makeRoom (h : (makeRoom lastSeen limit first begin now key m).lookup k = some v) :
    m.lookup k = some v := by
  have hleft : (m.filter fun _ v => live lastSeen now v).lookup k = some v →
    m.lookup k = some v := by
    rw [lookup_filter]
    exact fun h => (filter_eq_some_iff.mp h).1
  unfold makeRoom at h
  split at h
  · exact h
  · split at h
    · unfold prune at h
      dsimp only at h
      split at h
      · exact hleft (lookup_erase_eq_some.mp h).2
      · exact hleft h
    · exact h

/-- **What is live stays**, unless too many keys were seen in two minutes. -/
theorem lookup_makeRoom {seen : List (α × ℤ)} (hseen : ∀ k v, m.lookup k = some v →
    (k, lastSeen v) ∈ seen)
    (hbound : (recent now ((key, now) :: seen)).length ≤ limit) (h : m.lookup k = some v)
    (hlive : now - lastSeen v ≤ 2 * transportMaxSkew) :
    (makeRoom lastSeen limit first begin now key m).lookup k = some v := by
  unfold makeRoom
  split
  · exact h
  · next hkey =>
    split
    · unfold prune
      dsimp only
      rw [if_neg, lookup_filter, filter_eq_some_iff]
      · exact ⟨h, decide_eq_true hlive⟩
      · -- the key that is new makes one too many
        set left := m.filter fun _ v => live lastSeen now v with hleft
        have hmem : ∀ k ∈ left.keys, m.lookup k ≠ none ∧ k ∈ recent now ((key, now) :: seen) := by
          intro k hk
          obtain ⟨v, hv⟩ := isSome_iff_exists.mp (lookup_isSome.mpr (AList.mem_keys.mpr hk))
          rw [hleft, lookup_filter, filter_eq_some_iff] at hv
          refine ⟨by simp [hv.1], mem_recent.mpr ⟨_, .tail _ (hseen k v hv.1),
            of_decide_eq_true hv.2⟩⟩
        have hnodup : (key :: left.keys).Nodup :=
          nodup_cons.mpr ⟨fun hk => (hmem key hk).1 hkey, left.keys_nodup⟩
        have hsub : key :: left.keys ⊆ recent now ((key, now) :: seen) := by
          refine cons_subset.mpr ⟨mem_recent.mpr ⟨now, (.head _), ?_⟩, fun k hk => (hmem k hk).2⟩
          rw [Int.sub_self]
          decide
        have hlen := (subperm_of_subset hnodup hsub).length_le
        have hkeys : left.keys.length = left.entries.length := length_map _
        rw [length_cons] at hlen
        omega
    · exact h

end Room

/-! ## Receivers -/

variable {f : FrameAuth}

namespace Receiver

variable {S : Setup} {s s' : Receiver} {e : Arrival} {origin : String}

/-- What makes a frame that frame. -/
def identity (f : FrameAuth) : String × ℕ × ℕ × ℤ := (f.origin, f.epoch, f.seq, f.ts)

/-- The epochs of an origin, and when they were seen. -/
def epochsOf (seen : List (String × ℕ × ℤ)) (origin : String) : List (ℕ × ℤ) :=
  (seen.filter fun x => x.1 = origin).map Prod.snd

/-- The origins, and when they were seen. -/
def originsOf (seen : List (String × ℕ × ℤ)) : List (String × ℤ) := seen.map fun x => (x.1, x.2.2)

theorem mem_epochsOf {seen : List (String × ℕ × ℤ)} {t : ℤ} :
    (epoch, t) ∈ epochsOf seen origin ↔ (origin, epoch, t) ∈ seen := by
  simp [epochsOf]

/-- **Not too many were seen**: with this frame, eight epochs of its origin and 1024
origins in two minutes at most. -/
abbrev HasRoom (s : Receiver) (e : Arrival) : Prop :=
  (recent e.now ((e.frame.epoch, e.now) :: epochsOf s.seen e.frame.origin)).length ≤
      maxEpochsPerOrigin ∧
    (recent e.now ((e.frame.origin, e.now) :: originsOf s.seen)).length ≤ maxReplayOrigins

/-- There is room for a frame that passes its checks. -/
def Within (S : Setup) (s : Receiver) (e : Arrival) : Prop :=
  (checkFrame S e.method e.frame e.payload e.now).isOk = true → s.HasRoom e

instance : Decidable (Within S s e) := inferInstanceAs (Decidable (_ → _))

/-- The window of a frame is there and refuses it. -/
def Kept (replay : Replay) (f : FrameAuth) : Prop :=
  ∃ r w, replay.lookup f.origin = some r ∧ unixEpoch + f.ts - transportMaxSkew ≤ r.lastSeen ∧
    r.epochs.lookup f.epoch = some w ∧ unixEpoch + f.ts - transportMaxSkew ≤ w.lastSeen ∧
    w.Recorded f.seq

/-- **What holds of a receiver**: it knows when it saw what it has, and it has the
windows of the frames that can still pass. -/
structure Tracks (s : Receiver) : Prop where
  epochs : ∀ o r epoch w, s.replay.lookup o = some r → r.epochs.lookup epoch = some w →
    (epoch, w.lastSeen) ∈ epochsOf s.seen o
  origins : ∀ o r, s.replay.lookup o = some r → (o, r.lastSeen) ∈ originsOf s.seen
  past : ∀ x ∈ s.seen, x.2.2 ≤ s.clock
  kept : ∀ f ∈ s.accepted, s.clock ≤ unixEpoch + f.ts + transportMaxSkew → Kept s.replay f
  once : (s.accepted.map identity).Nodup

/-- What is known of an origin, and nothing of one that is new. -/
theorem Tracks.known (h : s.Tracks) {w : ReplayWindow}
    (hw : ((s.replay.lookup origin).getD {}).epochs.lookup epoch = some w) :
    (epoch, w.lastSeen) ∈ epochsOf s.seen origin := by
  cases ho : s.replay.lookup origin with
  | none =>
    rw [ho] at hw
    cases hw
  | some r =>
    rw [ho] at hw
    exact h.epochs origin r epoch w ho hw

/-- What a frame has to pass before `claim`. -/
theorem checkFrame_ok {method : String} {payload : List UInt8} {now : ℤ}
    (h : (checkFrame S method f payload now).isOk = true) :
    unixEpoch + f.ts - transportMaxSkew ≤ now ∧ now ≤ unixEpoch + f.ts + transportMaxSkew := by
  unfold checkFrame at h
  split at h
  · cases h
  · split at h
    · cases h
    · split at h
      · cases h
      · omega

/-- What becomes of an origin: its epochs as far as there is room, and the window of
the frame. -/
theorem lookup_claim (o : OriginReplay) (epoch seq : ℕ) (now : ℤ) (begin k : ℕ) :
    (o.claim epoch seq now begin).1.epochs.lookup k =
      if k = epoch then some ({ (o.epochs.lookup epoch).getD {} with lastSeen := now }.accept seq).1
      else (makeRoom ReplayWindow.lastSeen maxEpochsPerOrigin 0 begin now epoch o.epochs).lookup
        k :=
  lookup_insert_if

/-- **The window of an accepted frame stays** while the frame can pass. -/
theorem Tracks.kept_claim (h : s.Tracks) (hclock : s.clock ≤ e.now)
    (hwithin : s.HasRoom e) (hf : f ∈ s.accepted)
    (hpass : e.now ≤ unixEpoch + f.ts + transportMaxSkew) :
    Kept (claim s.replay e.frame.origin e.frame.epoch e.frame.seq e.now e.begins).1 f := by
  obtain ⟨r, w, hr, hrseen, hw, hwseen, hrec⟩ := h.kept f hf (by omega)
  have hnow : unixEpoch + f.ts - transportMaxSkew ≤ e.now := by
    obtain ⟨x, hx, heq⟩ := List.mem_map.mp (h.origins _ _ hr)
    have hlast : x.2.2 = r.lastSeen := congrArg Prod.snd heq
    have := h.past x hx
    omega
  by_cases ho : f.origin = e.frame.origin
  · rw [ho] at hr
    have hget : (s.replay.lookup e.frame.origin).getD {} = r := by rw [hr]; rfl
    obtain ⟨w', hw', hseen, hrec'⟩ :
      ∃ w', (r.claim e.frame.epoch e.frame.seq e.now e.begins.2).1.epochs.lookup f.epoch =
        some w' ∧ unixEpoch + f.ts - transportMaxSkew ≤ w'.lastSeen ∧ w'.Recorded f.seq := by
      rw [lookup_claim]
      split
      · next he =>
        rw [← he, hw]
        obtain ⟨-, hseen, hmono⟩ :=
          ({ w with lastSeen := e.now } : ReplayWindow).accept_spec e.frame.seq
        exact ⟨_, rfl, hseen ▸ hnow, (hmono f.seq).mpr (.inl hrec)⟩
      · refine ⟨w, lookup_makeRoom (fun _ _ hv => h.known (hget.symm ▸ hv)) hwithin.1 hw (by omega),
          hwseen, hrec⟩
    exact ⟨(r.claim e.frame.epoch e.frame.seq e.now e.begins.2).1,
      w', by rw [ho, ← hget]; exact lookup_insert _,
      hnow, hw', hseen, hrec'⟩
  · exact ⟨r, w, (lookup_insert_ne ho).trans (lookup_makeRoom h.origins hwithin.2 hr (by omega)),
      hrseen, hw, hwseen, hrec⟩

/-- **A frame that comes to `claim`** is taken only if it was not accepted before. -/
theorem Tracks.not_accepted (h : s.Tracks) (hclock : s.clock ≤ e.now)
    (hpass : e.now ≤ unixEpoch + e.frame.ts + transportMaxSkew)
    (hnew : (claim s.replay e.frame.origin e.frame.epoch e.frame.seq e.now e.begins).2 = true)
    (hf : f ∈ s.accepted) : identity f ≠ identity e.frame := by
  intro heq
  obtain ⟨ho, he, hseq, hts⟩ : f.origin = e.frame.origin ∧ f.epoch = e.frame.epoch ∧
    f.seq = e.frame.seq ∧
      f.ts = e.frame.ts := by
    simpa [identity] using heq
  obtain ⟨r, w, hr, -, hw, -, hrec⟩ := h.kept f hf (by omega)
  refine (({ w with lastSeen := e.now } : ReplayWindow).accept_spec e.frame.seq).1.mp ?_
    (hseq ▸ hrec)
  rw [← hnew]
  unfold claim OriginReplay.claim
  rw [← ho, hr, getD_some, ← he, hw]
  rfl

/-- **A frame that comes to `claim`** keeps what holds of the receiver. -/
theorem Tracks.claim (h : s.Tracks) (hclock : s.clock ≤ e.now)
    (hwithin : s.HasRoom e)
    (hpass : unixEpoch + e.frame.ts - transportMaxSkew ≤ e.now) {accepted : List FrameAuth}
    (haccepted : ∀ f ∈ accepted, f = e.frame ∨ f ∈ s.accepted)
    (honce : (accepted.map identity).Nodup) :
    Tracks ⟨(Transport.claim s.replay e.frame.origin e.frame.epoch e.frame.seq e.now e.begins).1,
      e.now,
      (e.frame.origin, e.frame.epoch, e.now) :: s.seen, accepted⟩ := by
  obtain ⟨-, hseen, hmono⟩ := ReplayWindow.accept_spec
    { ((((s.replay.lookup e.frame.origin).getD {}).epochs.lookup e.frame.epoch).getD {}) with
      lastSeen := e.now } e.frame.seq
  refine ⟨?_, ?_, ?_, ?_, honce⟩
  · intro o r epoch w hr hw
    rw [mem_epochsOf, mem_cons]
    rw [Transport.claim, lookup_insert_eq_some] at hr
    obtain ⟨ho, rfl⟩ | ⟨-, hr⟩ := hr
    · rw [lookup_claim] at hw
      split at hw
      · next he =>
        cases hw
        exact .inl (by rw [ho, he, hseen])
      · exact .inr (ho ▸ mem_epochsOf.mp (h.known (lookup_of_makeRoom hw)))
    · exact .inr (mem_epochsOf.mp (h.epochs o r epoch w (lookup_of_makeRoom hr) hw))
  · intro o r hr
    rw [Transport.claim, lookup_insert_eq_some] at hr
    obtain ⟨ho, rfl⟩ | ⟨-, hr⟩ := hr
    · exact mem_cons.mpr (.inl (by rw [ho]; rfl))
    · exact .tail _ (h.origins o r (lookup_of_makeRoom hr))
  · intro x hx
    rcases mem_cons.mp hx with rfl | hx
    · exact Int.le_refl _
    · exact Int.le_trans (h.past x hx) hclock
  · intro f hf hle
    rcases haccepted f hf with rfl | hf
    · refine ⟨_, _, lookup_insert _, hpass, (lookup_claim _ _ _ _ _ _).trans (if_pos rfl),
        hseen ▸ hpass,
        (hmono _).mpr (.inr (.inl rfl))⟩
    · exact h.kept_claim hclock hwithin hf hle

/-- What the arrival of a frame does. -/
theorem step_cases (hs : s.step S e = some s') :
    s.clock ≤ e.now ∧ (s' = { s with clock := e.now } ∨
      (checkFrame S e.method e.frame e.payload e.now).isOk = true ∧
        s' = ⟨(Transport.claim s.replay e.frame.origin e.frame.epoch e.frame.seq e.now e.begins).1,
          e.now, (e.frame.origin, e.frame.epoch, e.now) :: s.seen,
          if (Transport.claim s.replay e.frame.origin e.frame.epoch e.frame.seq e.now e.begins).2
          then e.frame :: s.accepted else s.accepted⟩) := by
  unfold Receiver.step verify at hs
  split at hs
  · cases hs
  · next hclock =>
    refine ⟨by omega, ?_⟩
    cases hcheck : checkFrame S e.method e.frame e.payload e.now with
    | error =>
      rw [hcheck] at hs
      exact .inl (some.inj hs).symm
    | ok =>
      rw [hcheck] at hs
      refine .inr ⟨rfl, (some.inj hs).symm.trans ?_⟩
      obtain ⟨replay, new⟩ := Transport.claim s.replay e.frame.origin e.frame.epoch e.frame.seq
        e.now e.begins
      cases new <;> rfl

/-- **One frame** keeps what holds of the receiver. -/
theorem Tracks.step (h : s.Tracks) (hwithin : Within S s e) (hs : s.step S e = some s') :
    s'.Tracks := by
  obtain ⟨hclock, rfl | ⟨hok, rfl⟩⟩ := step_cases hs
  · refine ⟨h.epochs, h.origins, fun x hx => ?_, fun f hf hle => h.kept f hf ?_, h.once⟩
    · exact Int.le_trans (h.past x hx) hclock
    · exact Int.le_trans hclock hle
  · obtain ⟨hfrom, hto⟩ := checkFrame_ok hok
    cases hnew : (Transport.claim s.replay e.frame.origin e.frame.epoch e.frame.seq e.now
      e.begins).2 with
    | false => exact h.claim hclock (hwithin hok) hfrom (fun f hf => .inr hf) h.once
    | true =>
      refine h.claim hclock (hwithin hok) hfrom (fun f hf => mem_cons.mp hf)
        (nodup_cons.mpr ⟨fun hmem => ?_, h.once⟩)
      obtain ⟨f, hf, heq⟩ := List.mem_map.mp hmem
      exact h.not_accepted hclock hto hnew hf heq

/-- **No frame is replayed.** While no more epochs and origins are seen in two
minutes than the receiver has room for, it accepts no frame twice, whatever arrives
and however late. -/
theorem frames_accepted_once (S : Setup) (start : ℤ)
    (h : Reachable (restrict (Within S) (Receiver.step S)) (fun _ => True) ⟨∅, start, [], []⟩ s) :
    (s.accepted.map identity).Nodup := by
  have hinit : Tracks ⟨∅, start, [], []⟩ := ⟨nofun, nofun, nofun, nofun, nodup_nil⟩
  refine (h.invariant hinit fun s e s' _ htracks _ hs => ?_).once
  obtain ⟨hwithin, hstep⟩ := restrict_eq_some.mp hs
  exact htracks.step hwithin hstep

/-- A frame that comes twice, and another one between. -/
theorem frames_accepted_once_twice :
    let S : Setup := ⟨fun _ f _ => f.mac, none⟩
    let arrive (seq : ℕ) (now : ℤ) : Arrival :=
      ⟨"AppendEntries", ⟨"a", 1, seq, 0, ""⟩, [], unixEpoch + now, 0, 0⟩
    ∃ s, Reachable (restrict (Within S) (Receiver.step S)) (fun _ => True) ⟨∅, 0, [], []⟩ s ∧
      s.accepted.map FrameAuth.seq = [9, 1] ∧ (s.accepted.map identity).Nodup ∧
      run (restrict (Within S) (Receiver.step S)) ⟨∅, 0, [], []⟩
        [arrive 1 0, arrive 9 1, arrive 1 second] = some s := by
  intro S arrive
  have hany : (run (restrict (Within S) (Receiver.step S)) ⟨∅, 0, [], []⟩
      [arrive 1 0, arrive 9 1, arrive 1 second]).any (fun s =>
      decide (s.accepted.map FrameAuth.seq = [9, 1])) =
        true := by
    decide +kernel
  obtain ⟨s, hrun, hs⟩ := exists_of_any hany
  have hreach : Reachable (restrict (Within S) (Receiver.step S)) (fun _ => True)
    ⟨∅, 0, [], []⟩ s :=
    .of_run .init (fun _ _ => trivial) hrun
  exact ⟨s, hreach, of_decide_eq_true hs, frames_accepted_once S 0 hreach, hrun⟩

end Receiver

end Anubis.Transport
