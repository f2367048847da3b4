import CoMoNet.Net.ProcessBlock
import CoMoNet.Chain.Atomic
import CoMoNet.Soft.Trunk

/-!
# The orphan maps

The two maps hold the same blocks (`Paired`). No block in them has an indexed parent
exactly if every awaited block that is entered is accepted (`Settles`). `Pending`
carries the loop: a waiting block with an indexed parent has it in the queue.
-/

namespace CoMoNet

open GuardedRun (System)

namespace Receiver

/-- The maps hold the same blocks, each under its keys and once. -/
structure Paired (env : Env) (r : Receiver) : Prop where
  /-- The key in `mapOrphanBlocks` is the hash. -/
  key : ∀ entry ∈ r.mapOrphanBlocks, entry.1 = env.blockHash entry.2
  /-- The key in `mapOrphanBlocksByPrev` is the hash of the parent. -/
  prev : ∀ entry ∈ r.mapOrphanBlocksByPrev, entry.1 = entry.2.hashPrevBlock
  /-- No hash is twice in `mapOrphanBlocks`. -/
  nodup : (r.mapOrphanBlocks.map Prod.fst).Nodup
  same : (r.mapOrphanBlocksByPrev.map Prod.snd).Perm (r.mapOrphanBlocks.map Prod.snd)

/-- No block in the maps has an indexed parent. -/
def Parentless (env : Env) (r : Receiver) : Prop :=
  ∀ entry ∈ r.mapOrphanBlocks, r.known env entry.2.hashPrevBlock = false

/-! ## The condition -/

/-- A block that `AcceptBlock` enters while another one waits for it is
accepted. -/
def Settled (env : Env) (call : BlockCall) (r : Receiver) (block : CBlock) : Prop :=
  r.node.Enters env call block → r.waiting (env.blockHash block) ≠ [] →
    ∃ node, r.node.acceptBlockAt env call block = .ok (true, node)

/-- The loop over the blocks that wait for one parent settles each of them. -/
def OrphansSettle (env : Env) (call : BlockCall) : Receiver → List CBlock → Prop
  | _, [] => True
  | r, block :: rest =>
    r.Settled env call block ∧
      ∀ accepted node, r.node.acceptBlockAt env call block = .ok (accepted, node) →
        OrphansSettle env call ({ r with node }.eraseOrphan (env.blockHash block)) rest

/-- The loop over the work queue settles every block it takes. -/
def QueueSettles (env : Env) (call : BlockCall) : Nat → Receiver → List Uint256 → Prop
  | 0, _, _ => True
  | _ + 1, _, [] => True
  | rounds + 1, r, hashPrev :: vWorkQueue =>
    r.OrphansSettle env call (r.waiting hashPrev) ∧
      ∀ more r', r.acceptOrphans env call (r.waiting hashPrev) = .ok (more, r') →
        QueueSettles env call rounds (r'.erasePrev hashPrev) (vWorkQueue ++ more)

/-- Every block the call enters into the index while others wait for it is
accepted. -/
def Settles (env : Env) (call : BlockCall) (r : Receiver) (block : CBlock) : Prop :=
  r.checks env block = .valid → r.orphaned env block = false →
    r.Settled env call block ∧
      ∀ node, r.node.acceptBlockAt env call block = .ok (true, node) →
        QueueSettles env call r.releaseRounds { r with node } [env.blockHash block]

/-! ## The maps stay the same -/

section Maps

variable {env : Env} {call : BlockCall} {r r' : Receiver} {block : CBlock} {hashPrev : Uint256}
variable {blocks : List CBlock} {more : List Uint256}

theorem mem_waiting :
    block ∈ r.waiting hashPrev ↔ (hashPrev, block) ∈ r.mapOrphanBlocksByPrev := by
  simp [waiting]

theorem waiting_ne_nil :
    r.waiting hashPrev ≠ [] ↔ ∃ entry ∈ r.mapOrphanBlocksByPrev, entry.1 = hashPrev := by
  rw [Ne, List.eq_nil_iff_forall_not_mem, not_forall]
  constructor
  · rintro ⟨block, hblock⟩
    exact ⟨_, mem_waiting.mp (not_not.mp hblock), rfl⟩
  · rintro ⟨⟨_, block⟩, hentry, rfl⟩
    exact ⟨block, not_not.mpr (mem_waiting.mpr hentry)⟩

theorem acceptOrphans_maps (h : r.acceptOrphans env call blocks = .ok (more, r')) :
    r'.mapOrphanBlocksByPrev = r.mapOrphanBlocksByPrev ∧
      r'.mapOrphanBlocks = r.mapOrphanBlocks.filter fun entry =>
        decide (entry.1 ∉ blocks.map env.blockHash) := by
  induction blocks generalizing r more r' with
  | nil =>
    cases h
    simp
  | cons block rest ih =>
    rw [acceptOrphans] at h
    split at h
    · cases h
    rename_i accepted node hone
    split at h
    · cases h
    rename_i more' r₁ hrest
    cases h
    obtain ⟨hprev, hmap⟩ := ih hrest
    refine ⟨hprev, ?_⟩
    rw [hmap, eraseOrphan, List.filter_filter]
    refine List.filter_congr fun entry _ => ?_
    rw [Bool.eq_iff_iff]
    simp [and_comm]

theorem Paired.hash_waiting_iff (h : Paired env r) {entry : Uint256 × CBlock}
    (hentry : entry ∈ r.mapOrphanBlocks) :
    entry.1 ∈ (r.waiting hashPrev).map env.blockHash ↔ entry.2.hashPrevBlock = hashPrev := by
  constructor
  · intro hmem
    obtain ⟨block, hblock, hhash⟩ := List.mem_map.mp hmem
    have hprev := mem_waiting.mp hblock
    obtain ⟨other, hother, hsnd⟩ := List.mem_map.mp
      (h.same.mem_iff.mp (List.mem_map_of_mem (f := Prod.snd) hprev))
    have hkey : other.1 = entry.1 := by rw [h.key other hother, hsnd, ← hhash]
    have heq := List.inj_on_of_nodup_map h.nodup hother hentry hkey
    rw [← heq, hsnd]
    exact (h.prev _ hprev).symm
  · intro hprev
    have hmem := h.same.mem_iff.mpr (List.mem_map_of_mem (f := Prod.snd) hentry)
    obtain ⟨other, hother, hsnd⟩ := List.mem_map.mp hmem
    have hpair : (hashPrev, entry.2) ∈ r.mapOrphanBlocksByPrev := by
      have hkey := h.prev other hother
      rw [hsnd, hprev] at hkey
      rwa [← hkey, ← hsnd]
    rw [h.key entry hentry]
    exact List.mem_map_of_mem (mem_waiting.mpr hpair)

/-- Taking out keeps the maps paired. -/
theorem Paired.release (h : Paired env r)
    (hprev : r'.mapOrphanBlocksByPrev = r.mapOrphanBlocksByPrev)
    (hmap : r'.mapOrphanBlocks = r.mapOrphanBlocks.filter fun entry =>
      decide (entry.1 ∉ (r.waiting hashPrev).map env.blockHash)) :
    Paired env (r'.erasePrev hashPrev) where
  key entry hentry := by
    rw [erasePrev, hmap] at hentry
    exact h.key entry (List.mem_of_mem_filter hentry)
  prev entry hentry := by
    rw [erasePrev, hprev] at hentry
    exact h.prev entry (List.mem_of_mem_filter hentry)
  nodup := by
    rw [erasePrev, hmap]
    exact h.nodup.sublist (List.filter_sublist.map Prod.fst)
  same := by
    have hright : (r'.mapOrphanBlocks.map Prod.snd) =
        (r.mapOrphanBlocks.map Prod.snd).filter fun block =>
          decide (block.hashPrevBlock ≠ hashPrev) := by
      rw [hmap, List.filter_map]
      refine congrArg _ (List.filter_congr fun entry hentry => ?_)
      simp only [Function.comp_apply, h.hash_waiting_iff hentry, ne_eq]
    have hleft : ((r.mapOrphanBlocksByPrev.filter fun entry => entry.1 != hashPrev).map Prod.snd) =
        (r.mapOrphanBlocksByPrev.map Prod.snd).filter fun block =>
          decide (block.hashPrevBlock ≠ hashPrev) := by
      rw [List.filter_map]
      refine congrArg _ (List.filter_congr fun entry hentry => ?_)
      rw [h.prev entry hentry]
      simp [bne, beq_eq_decide]
    rw [erasePrev, hprev]
    simp only
    rw [hleft, hright]
    exact h.same.filter _

end Maps

/-! ## What the loops leave behind -/

section Known

variable {env : Env} {call : BlockCall} {n n' : Node} {r r' : Receiver} {block : CBlock}
variable {hash : Uint256} {blocks : List CBlock} {more : List Uint256} {b : Bool}

theorem known_iff :
    r.known env hash = true ↔
      ∃ p ∈ r.node.chain.mapBlockIndex, env.blockHash p.block = hash := by
  simp [known, ChainState.findBlockIndex]

theorem enters_fresh (h : r.node.Enters env call block) :
    r.known env (env.blockHash block) = false := by
  have hchecks := h.1
  rw [acceptChecks] at hchecks
  rw [known]
  split at hchecks
  · cases hchecks
  · rename_i hnone
    rw [hnone]
    rfl

theorem enters_of_accepted (h : r.node.acceptBlockAt env call block = .ok (true, n')) :
    r.node.Enters env call block := by
  rcases Node.acceptBlockAt_cases h with ⟨hfalse, -⟩ | ⟨henters, -⟩
  · cases hfalse
  · exact henters

variable (r' hash) in
/-- What is indexed after a block. -/
theorem known_after (h : r.node.acceptBlockAt env call block = .ok (b, r'.node)) :
    r'.known env hash = true ↔
      r.known env hash = true ∨ r.node.Enters env call block ∧ env.blockHash block = hash := by
  rw [known_iff, known_iff]
  rcases Node.acceptBlockAt_cases h with ⟨-, hnot, hmap⟩ | ⟨henters, p, rfl, hmap⟩
  · simp [hmap, hnot]
  · simp [hmap, henters, or_comm]

/-- The queue gets the hashes that were not indexed before the loop and are now. -/
theorem acceptOrphans_known (h : r.acceptOrphans env call blocks = .ok (more, r')) :
    (∀ hash, r.known env hash = true → r'.known env hash = true) ∧
      ∀ hash ∈ more, r.known env hash = false ∧ r'.known env hash = true := by
  induction blocks generalizing r more r' with
  | nil =>
    cases h
    exact ⟨fun _ => id, nofun⟩
  | cons block rest ih =>
    rw [acceptOrphans] at h
    split at h
    · cases h
    rename_i accepted node hone
    split at h
    · cases h
    rename_i more' r₁ hrest
    cases h
    obtain ⟨hmono, hmore⟩ := ih hrest
    have hafter := fun hash =>
      known_after ({ r with node }.eraseOrphan (env.blockHash block)) hash hone
    have hold : ∀ hash, r.known env hash = true → r'.known env hash = true :=
      fun hash hknown => hmono hash ((hafter hash).mpr (.inl hknown))
    have hnew : ∀ hash ∈ more', r.known env hash = false ∧ r'.known env hash = true := by
      intro hash hmem
      obtain ⟨hfresh, hknown⟩ := hmore hash hmem
      refine ⟨Bool.eq_false_of_not_eq_true fun hr => ?_, hknown⟩
      rw [(hafter hash).mpr (.inl hr)] at hfresh
      cases hfresh
    refine ⟨hold, fun hash hmem => ?_⟩
    split at hmem
    · rename_i haccepted
      subst haccepted
      have henters := enters_of_accepted hone
      rcases List.mem_cons.mp hmem with rfl | hmem
      · exact ⟨enters_fresh henters, hmono _ ((hafter _).mpr (.inr ⟨henters, rfl⟩))⟩
      · exact hnew hash hmem
    · exact hnew hash hmem

/-- The loop settles the waiting blocks iff awaited ones it enters get into the queue. -/
theorem orphansSettle_iff (h : r.acceptOrphans env call blocks = .ok (more, r')) :
    r.OrphansSettle env call blocks ↔
      ∀ entry ∈ r.mapOrphanBlocksByPrev, r'.known env entry.1 = true →
        r.known env entry.1 = true ∨ entry.1 ∈ more := by
  induction blocks generalizing r more r' with
  | nil =>
    cases h
    exact ⟨fun _ _ _ => .inl, fun _ => trivial⟩
  | cons block rest ih =>
    rw [acceptOrphans] at h
    split at h
    · cases h
    rename_i accepted node hone
    split at h
    · cases h
    rename_i more' r₁ hrest
    cases h
    have hafter := fun hash =>
      known_after ({ r with node }.eraseOrphan (env.blockHash block)) hash hone
    have hnext : (∀ accepted node, r.node.acceptBlockAt env call block = .ok (accepted, node) →
        OrphansSettle env call ({ r with node }.eraseOrphan (env.blockHash block)) rest) ↔
        OrphansSettle env call ({ r with node }.eraseOrphan (env.blockHash block)) rest := by
      refine ⟨fun hall => hall accepted node hone, fun hsettle b n' hn' => ?_⟩
      rw [hone] at hn'
      cases hn'
      exact hsettle
    rw [OrphansSettle, hnext, ih hrest]
    simp only [hafter]
    by_cases henters : r.node.Enters env call block
    case neg =>
      have hfalse : accepted = false := by
        cases accepted with
        | false => rfl
        | true => exact absurd (enters_of_accepted hone) henters
      simp [Settled, henters, hfalse]
      rfl
    case pos =>
      cases accepted with
      | true =>
        have hsettled : r.Settled env call block := fun _ _ => ⟨node, hone⟩
        simp only [hsettled, henters, true_and, if_true, List.mem_cons]
        refine forall_congr' fun entry => forall_congr' fun _ => forall_congr' fun _ => ?_
        rw [or_assoc, eq_comm (a := env.blockHash block)]
      | false =>
        obtain ⟨hmono, hmore⟩ := acceptOrphans_known hrest
        have hself := (hafter (env.blockHash block)).mpr (.inr ⟨henters, rfl⟩)
        simp only [Bool.false_eq_true, if_false, henters, true_and]
        constructor
        · rintro ⟨hsettled, hleft⟩ entry hentry hknown
          rcases hleft entry hentry hknown with (hr | hhash) | hmem
          · exact .inl hr
          · obtain ⟨n', hn'⟩ := hsettled henters (waiting_ne_nil.mpr ⟨entry, hentry, hhash.symm⟩)
            rw [hone] at hn'
            cases hn'
          · exact .inr hmem
        · intro hleft
          refine ⟨fun _ hwaiting => ?_, fun entry hentry hknown => ?_⟩
          · obtain ⟨entry, hentry, hhash⟩ := waiting_ne_nil.mp hwaiting
            rcases hleft entry hentry (hhash ▸ hmono _ hself) with hr | hmem
            · rw [hhash, enters_fresh henters] at hr
              cases hr
            · have hfresh := (hmore _ hmem).1
              rw [hhash, hself] at hfresh
              cases hfresh
          · rcases hleft entry hentry hknown with hr | hmem
            · exact .inl (.inl hr)
            · exact .inr hmem

end Known

/-! ## The work queue -/

/-- A waiting block whose parent is indexed has its parent in the queue. -/
def Pending (env : Env) (r : Receiver) (vWorkQueue : List Uint256) : Prop :=
  ∀ entry ∈ r.mapOrphanBlocksByPrev, r.known env entry.1 = true → entry.1 ∈ vWorkQueue

section Queue

variable {env : Env} {call : BlockCall} {r r' : Receiver} {block : CBlock} {hashPrev : Uint256}
variable {blocks : List CBlock} {more vWorkQueue : List Uint256} {rounds : Nat} {b : Bool}

/-- With an empty queue nothing is pending. -/
theorem Paired.parentless_iff (h : Paired env r) : r.Parentless env ↔ r.Pending env [] := by
  constructor
  · intro hfree entry hentry hknown
    have hmem := h.same.mem_iff.mp (List.mem_map_of_mem (f := Prod.snd) hentry)
    obtain ⟨other, hother, hsnd⟩ := List.mem_map.mp hmem
    have hnone := hfree other hother
    rw [hsnd, ← h.prev entry hentry, hknown] at hnone
    cases hnone
  · intro hpending entry hentry
    have hmem := h.same.mem_iff.mpr (List.mem_map_of_mem (f := Prod.snd) hentry)
    obtain ⟨other, hother, hsnd⟩ := List.mem_map.mp hmem
    refine Bool.eq_false_of_not_eq_true fun hknown => ?_
    rw [← hsnd, ← h.prev other hother] at hknown
    cases hpending other hother hknown

theorem acceptOrphans_length (h : r.acceptOrphans env call blocks = .ok (more, r')) :
    more.length ≤ blocks.length := by
  induction blocks generalizing r more r' with
  | nil =>
    cases h
    exact Nat.le_refl 0
  | cons block rest ih =>
    rw [acceptOrphans] at h
    split at h
    · cases h
    split at h
    · cases h
    rename_i hrest
    cases h
    have hlen := ih hrest
    split
    · exact Nat.succ_le_succ hlen
    · exact Nat.le_succ_of_le hlen

/-- Rounds are bounded by the waiting blocks. -/
theorem erasePrev_length (h : r.acceptOrphans env call (r.waiting hashPrev) = .ok (more, r')) :
    (r'.erasePrev hashPrev).mapOrphanBlocksByPrev.length + more.length ≤
      r.mapOrphanBlocksByPrev.length := by
  have hlen := acceptOrphans_length h
  have hsplit := List.length_eq_length_filter_add (l := r.mapOrphanBlocksByPrev)
    fun entry => entry.1 == hashPrev
  rw [waiting, List.length_map] at hlen
  rw [erasePrev, (acceptOrphans_maps h).1]
  simp only [bne] at hsplit ⊢
  omega

theorem pending_round (h : r.acceptOrphans env call (r.waiting hashPrev) = .ok (more, r'))
    (hqueue : ∀ hash ∈ hashPrev :: vWorkQueue, r.known env hash = true) :
    (r'.erasePrev hashPrev).Pending env (vWorkQueue ++ more) ↔
      r.Pending env (hashPrev :: vWorkQueue) ∧ r.OrphansSettle env call (r.waiting hashPrev) := by
  obtain ⟨hmono, hmore⟩ := acceptOrphans_known h
  have hmem : ∀ entry, entry ∈ (r'.erasePrev hashPrev).mapOrphanBlocksByPrev ↔
      entry ∈ r.mapOrphanBlocksByPrev ∧ entry.1 ≠ hashPrev := by
    intro entry
    rw [erasePrev, (acceptOrphans_maps h).1]
    simp
  rw [orphansSettle_iff h]
  constructor
  · intro hpending
    have hafter : ∀ entry ∈ r.mapOrphanBlocksByPrev, r'.known env entry.1 = true →
        entry.1 ∈ hashPrev :: vWorkQueue ∨ entry.1 ∈ more := by
      intro entry hentry hknown
      by_cases hkey : entry.1 = hashPrev
      · exact .inl (hkey ▸ List.mem_cons_self)
      · rcases List.mem_append.mp (hpending entry ((hmem entry).mpr ⟨hentry, hkey⟩) hknown) with
          hq | hm
        · exact .inl (List.mem_cons_of_mem _ hq)
        · exact .inr hm
    constructor
    · intro entry hentry hknown
      rcases hafter entry hentry (hmono _ hknown) with hq | hm
      · exact hq
      · rw [(hmore _ hm).1] at hknown
        cases hknown
    · intro entry hentry hknown
      exact (hafter entry hentry hknown).imp (hqueue _) id
  · rintro ⟨hpending, hsettle⟩ entry hentry hknown
    obtain ⟨hold, hkey⟩ := (hmem entry).mp hentry
    rcases hsettle entry hold hknown with hr | hm
    · rcases List.mem_cons.mp (hpending entry hold hr) with heq | hq
      · exact absurd heq hkey
      · exact List.mem_append_left _ hq
    · exact List.mem_append_right _ hm

theorem Paired.releaseOrphans (hpaired : Paired env r)
    (h : r.releaseOrphans env call rounds vWorkQueue = .ok r') : Paired env r' := by
  induction rounds generalizing r vWorkQueue with
  | zero =>
    cases h
    exact hpaired
  | succ rounds ih =>
    cases vWorkQueue with
    | nil =>
      cases h
      exact hpaired
    | cons hashPrev vWorkQueue =>
      rw [Receiver.releaseOrphans] at h
      split at h
      · cases h
      rename_i more r₁ hone
      obtain ⟨hprev, hmap⟩ := acceptOrphans_maps hone
      exact ih (hpaired.release hprev hmap) h

/-- The loop leaves no block behind exactly if none was and it settles all it takes. -/
theorem releaseOrphans_iff (h : r.releaseOrphans env call rounds vWorkQueue = .ok r')
    (hrounds : r.mapOrphanBlocksByPrev.length + vWorkQueue.length ≤ rounds)
    (hqueue : ∀ hash ∈ vWorkQueue, r.known env hash = true) :
    r'.Pending env [] ↔
      r.Pending env vWorkQueue ∧ QueueSettles env call rounds r vWorkQueue := by
  induction rounds generalizing r vWorkQueue with
  | zero =>
    cases h
    have hnil : vWorkQueue = [] := List.length_eq_zero_iff.mp (by omega)
    rw [hnil]
    exact (and_iff_left trivial).symm
  | succ rounds ih =>
    cases vWorkQueue with
    | nil =>
      cases h
      exact (and_iff_left trivial).symm
    | cons hashPrev vWorkQueue =>
      rw [Receiver.releaseOrphans] at h
      split at h
      · cases h
      rename_i more r₁ hone
      obtain ⟨hmono, hmore⟩ := acceptOrphans_known hone
      have hlen := erasePrev_length hone
      have hround : (r₁.erasePrev hashPrev).mapOrphanBlocksByPrev.length +
          (vWorkQueue ++ more).length ≤ rounds := by
        simp only [List.length_cons, List.length_append] at hrounds ⊢
        omega
      have hknown : ∀ hash ∈ vWorkQueue ++ more,
          (r₁.erasePrev hashPrev).known env hash = true := by
        intro hash hmem
        rcases List.mem_append.mp hmem with hq | hm
        · exact hmono _ (hqueue _ (List.mem_cons_of_mem _ hq))
        · exact (hmore _ hm).2
      have hnext : (∀ more' r'', r.acceptOrphans env call (r.waiting hashPrev) =
          .ok (more', r'') → QueueSettles env call rounds (r''.erasePrev hashPrev)
            (vWorkQueue ++ more')) ↔
          QueueSettles env call rounds (r₁.erasePrev hashPrev) (vWorkQueue ++ more) := by
        refine ⟨fun hall => hall more r₁ hone, fun hsettle more' r'' heq => ?_⟩
        rw [hone] at heq
        cases heq
        exact hsettle
      rw [ih h hround hknown, pending_round hone hqueue, QueueSettles, hnext, and_assoc]

end Queue

/-! ## The call -/

section Call

variable {env : Env} {call : BlockCall} {r r' : Receiver} {block : CBlock} {b : Bool}

theorem checks_valid (h : r.checks env block = .valid) :
    r.known env (env.blockHash block) = false ∧
      env.blockHash block ∉ r.mapOrphanBlocks.map Prod.fst := by
  rw [checks] at h
  split at h
  · cases h
  rename_i hknown
  split at h
  · cases h
  rename_i horphan
  refine ⟨Bool.eq_false_of_not_eq_true hknown, fun hmem => horphan ?_⟩
  obtain ⟨entry, hentry, hkey⟩ := List.mem_map.mp hmem
  exact List.any_eq_true.mpr ⟨entry, hentry, beq_iff_eq.mpr hkey⟩

/-- An orphan goes into both maps. -/
theorem Paired.addOrphan (h : Paired env r)
    (hnew : env.blockHash block ∉ r.mapOrphanBlocks.map Prod.fst) :
    Paired env (r.addOrphan env block) where
  key entry hentry := by
    rcases List.mem_append.mp hentry with hentry | hentry
    · exact h.key entry hentry
    · rw [List.mem_singleton.mp hentry]
  prev entry hentry := by
    rcases List.mem_append.mp hentry with hentry | hentry
    · exact h.prev entry hentry
    · rw [List.mem_singleton.mp hentry]
  nodup := by
    rw [Receiver.addOrphan, List.map_append]
    refine h.nodup.append (List.nodup_singleton _) ?_
    rw [List.map_singleton, List.disjoint_singleton]
    exact hnew
  same := by
    rw [Receiver.addOrphan, List.map_append, List.map_append]
    exact h.same.append_right _

/-- A call keeps the maps paired. -/
theorem Paired.processBlock (h : Paired env r)
    (hcall : r.processBlock env call block = .ok (b, r')) : Paired env r' := by
  rw [Receiver.processBlock] at hcall
  split at hcall
  · cases hcall
    exact h
  rename_i hchecks
  split at hcall
  · cases hcall
    split
    · exact h.addOrphan (checks_valid hchecks).2
    · exact h
  split at hcall
  · cases hcall
  · cases hcall
    exact ⟨h.key, h.prev, h.nodup, h.same⟩
  · rename_i node hone
    obtain ⟨r₁, hrel, hcall⟩ := Except.map_eq_ok_iff.mp hcall
    cases hcall
    have hpaired : Paired env { r with node } := ⟨h.key, h.prev, h.nodup, h.same⟩
    exact hpaired.releaseOrphans hrel

theorem Parentless.addOrphan (h : r.Parentless env) (horphan : r.orphaned env block = true) :
    (r.addOrphan env block).Parentless env := by
  intro entry hentry
  rcases List.mem_append.mp hentry with hentry | hentry
  · exact h entry hentry
  · rw [List.mem_singleton.mp hentry]
    rw [orphaned, Bool.and_eq_true, Bool.not_eq_true'] at horphan
    exact horphan.2

/-- After `AcceptBlock` only blocks waiting for the new one may have an indexed parent. -/
theorem pending_accepted {node : Node} (h : r.Pending env [])
    (hone : r.node.acceptBlockAt env call block = .ok (b, node)) :
    Pending env { r with node } [env.blockHash block] := by
  intro entry hentry hknown
  rcases (known_after { r with node } _ hone).mp hknown with hold | ⟨-, hhash⟩
  · cases h entry hentry hold
  · exact hhash ▸ List.mem_singleton_self _

/-- A block not accepted leaves others behind exactly if it was entered and awaited. -/
theorem pending_rejected {node : Node} (h : r.Pending env [])
    (hone : r.node.acceptBlockAt env call block = .ok (false, node)) :
    Pending env { r with node } [] ↔ r.Settled env call block := by
  have hafter := fun hash => known_after { r with node } hash hone
  constructor
  · intro hpending henters hwaiting
    obtain ⟨entry, hentry, hkey⟩ := waiting_ne_nil.mp hwaiting
    cases hpending entry hentry ((hafter _).mpr (.inr ⟨henters, hkey.symm⟩))
  · intro hsettled entry hentry hknown
    rcases (hafter _).mp hknown with hold | ⟨henters, hhash⟩
    · exact h entry hentry hold
    · obtain ⟨n', hn'⟩ := hsettled henters (waiting_ne_nil.mpr ⟨entry, hentry, hhash.symm⟩)
      rw [hone] at hn'
      cases hn'

/-- A call leaves no parent indexed exactly if it settles the blocks it enters. -/
theorem processBlock_parentless (hpaired : Paired env r) (hfree : r.Parentless env)
    (hcall : r.processBlock env call block = .ok (b, r')) :
    r'.Parentless env ↔ r.Settles env call block := by
  have hpending := hpaired.parentless_iff.mp hfree
  have hpaired' := hpaired.processBlock hcall
  rw [Receiver.processBlock] at hcall
  split at hcall
  · rename_i hchecks
    cases hcall
    refine iff_of_true hfree fun hvalid => ?_
    rw [hvalid] at hchecks
    cases hchecks
  rename_i hchecks
  split at hcall
  · rename_i horphan
    cases hcall
    refine iff_of_true ?_ fun _ hnot => ?_
    · split
      · exact hfree.addOrphan horphan
      · exact hfree
    · rw [horphan] at hnot
      cases hnot
  rename_i horphan
  have hreaches : r.Settles env call block ↔ r.Settled env call block ∧
      ∀ node, r.node.acceptBlockAt env call block = .ok (true, node) →
        QueueSettles env call r.releaseRounds { r with node } [env.blockHash block] :=
    ⟨fun h => h hchecks (Bool.eq_false_of_not_eq_true horphan), fun h _ _ => h⟩
  rw [hpaired'.parentless_iff, hreaches]
  split at hcall
  · cases hcall
  · rename_i node hone
    cases hcall
    rw [pending_rejected hpending hone]
    refine (and_iff_left fun n' hn' => ?_).symm
    rw [hone] at hn'
    cases hn'
  · rename_i node hone
    obtain ⟨r₁, hrel, hcall⟩ := Except.map_eq_ok_iff.mp hcall
    cases hcall
    have hself : Receiver.known env { r with node } (env.blockHash block) = true :=
      (known_after { r with node } _ hone).mpr (.inr ⟨enters_of_accepted hone, rfl⟩)
    rw [releaseOrphans_iff hrel (Nat.le_refl _) (by simpa using hself)]
    have hsettled : r.Settled env call block := fun _ _ => ⟨node, hone⟩
    constructor
    · rintro ⟨-, hqueue⟩
      refine ⟨hsettled, fun n' hn' => ?_⟩
      rw [hone] at hn'
      cases hn'
      exact hqueue
    · rintro ⟨-, hqueue⟩
      exact ⟨pending_accepted hpending hone, hqueue node hone⟩

end Call

end Receiver

/-! ## Runs -/

/-- What can happen. -/
inductive ReceiveLabel where
  /-- A call of `ProcessBlock`. -/
  | block (call : BlockCall) (block : CBlock)
  | vote (fuel rounds : Nat) (vote : Vote)
  | clock (now : Int)

/-- One step. -/
def ReceiveStep (env : Env) (r : Receiver) : ReceiveLabel → Receiver → Prop
  | .block call block, r' => ∃ b, r.processBlock env call block = .ok (b, r')
  | .vote fuel rounds vote, r' =>
    ∃ relay node, r.node.castVote env fuel rounds vote = .ok (relay, node) ∧ r' = { r with node }
  | .clock now, r' =>
    r' = { r with node := { r.node with chain := { r.node.chain with clock := now } } }

/-- A node from any chain on, with empty orphan maps. -/
def receiveSystem (env : Env) : System Receiver ReceiveLabel where
  init r := r.mapOrphanBlocks = [] ∧ r.mapOrphanBlocksByPrev = []
  step := ReceiveStep env

/-- Every block a call enters into the index while others wait for it is
accepted. -/
def CallsSettle (env : Env) (r : Receiver) : ReceiveLabel → Prop
  | .block call block => r.Settles env call block
  | .vote .. | .clock _ => True

section Runs

variable {env : Env} {call : BlockCall} {r r' : Receiver} {block : CBlock} {b : Bool}

/-- The maps are paired in every run. -/
theorem paired_of_reach {ok : Receiver → ReceiveLabel → Prop} (h : (receiveSystem env).Reach ok r) :
    r.Paired env := by
  refine h.invariant ?_ ?_
  · rintro r ⟨hmap, hprev⟩
    refine ⟨?_, ?_, ?_, ?_⟩ <;> simp [hmap, hprev]
  · intro r a r' hr _ hstep
    cases a with
    | block call block =>
      obtain ⟨b, hcall⟩ := hstep
      exact hr.processBlock hcall
    | vote fuel rounds vote =>
      obtain ⟨relay, node, -, rfl⟩ := hstep
      exact ⟨hr.key, hr.prev, hr.nodup, hr.same⟩
    | clock now =>
      obtain rfl := hstep
      exact ⟨hr.key, hr.prev, hr.nodup, hr.same⟩

/-- Runs that settle leave no parent indexed. -/
theorem parentless_of_reach (h : (receiveSystem env).Reach (CallsSettle env) r) :
    r.Parentless env := by
  have hboth : r.Paired env ∧ r.Parentless env := by
    refine System.Reach.invariant (I := fun r => r.Paired env ∧ r.Parentless env) ?_ ?_ h
    · rintro r hinit
      have hreach : (receiveSystem env).Reach (CallsSettle env) r := .init hinit
      refine ⟨paired_of_reach hreach, ?_⟩
      intro entry hentry
      rw [hinit.1] at hentry
      cases hentry
    · rintro r a r' ⟨hpaired, hfree⟩ hok hstep
      cases a with
      | block call block =>
        obtain ⟨b, hcall⟩ := hstep
        exact ⟨hpaired.processBlock hcall,
          (Receiver.processBlock_parentless hpaired hfree hcall).mpr hok⟩
      | vote fuel rounds vote =>
        obtain ⟨relay, node, hcast, rfl⟩ := hstep
        refine ⟨⟨hpaired.key, hpaired.prev, hpaired.nodup, hpaired.same⟩, ?_⟩
        intro entry hentry
        have hknown := hfree entry hentry
        rw [Receiver.known, ChainState.findBlockIndex] at hknown ⊢
        rwa [Node.castVote_map hcast]
      | clock now =>
        obtain rfl := hstep
        exact ⟨⟨hpaired.key, hpaired.prev, hpaired.nodup, hpaired.same⟩, hfree⟩
  exact hboth.2

end Runs

/-! ## A block that waits for another one -/

/-- A call. -/
def smallCall : BlockCall where
  fuel := 8
  rounds := 8
  post := walletOf none
  busy := false
  blockPos block := some (smallPos block)
  pfrom := true

/-- A node with the genesis block. -/
def genesisReceiver : Receiver where
  node := { chain := stateAfter smallNet (succeeds smallNet) (arrive smallGenesis) }

/-- A child. -/
def childOf (p : CBlockIndex) : CBlock := smallBlock p.block 9 []

/-- The child comes first. -/
def childFirst (p : CBlockIndex) : Receiver := genesisReceiver.addOrphan smallNet (childOf p)

theorem reach_childFirst {p : CBlockIndex}
    (hchecks : genesisReceiver.checks smallNet (childOf p) = .valid)
    (horphan : genesisReceiver.orphaned smallNet (childOf p) = true) :
    (receiveSystem smallNet).Reach (CallsSettle smallNet) (childFirst p) := by
  have hinit : (receiveSystem smallNet).Reach (CallsSettle smallNet) genesisReceiver :=
    .init ⟨rfl, rfl⟩
  refine .step (a := .block smallCall (childOf p)) hinit (fun _ hnot => ?_) ⟨true, ?_⟩
  · rw [horphan] at hnot
    cases hnot
  · rw [Receiver.processBlock, hchecks]
    simp only [horphan, if_true]
    rfl

section Runs

variable {env : Env} {call : BlockCall} {r r' : Receiver} {block : CBlock} {b : Bool}

/-- The maps hold the same blocks in every run. While calls settle the blocks they enter, no block
in them has an indexed parent, and the next call keeps it so exactly if it does. -/
theorem process_consistent_iff
    (h : (receiveSystem env).Reach (CallsSettle env) r)
    (hcall : r.processBlock env call block = .ok (b, r')) :
    r.Paired env ∧ r.Parentless env ∧ r'.Paired env ∧
      (r'.Parentless env ↔ r.Settles env call block) := by
  have hpaired := paired_of_reach h
  have hfree := parentless_of_reach h
  exact ⟨hpaired, hfree, hpaired.processBlock hcall,
    Receiver.processBlock_parentless hpaired hfree hcall⟩

/-- A parent that is accepted releases its child. -/
theorem process_consistent_alice :
    ∃ r', (childFirst aliceBlock).processBlock smallNet smallCall aliceBlock.block =
        .ok (true, r') ∧
      (childFirst aliceBlock).mapOrphanBlocks = [(9, childOf aliceBlock)] ∧
      (childFirst aliceBlock).Settles smallNet smallCall aliceBlock.block ∧
      r'.mapOrphanBlocks = [] := by
  have hfacts : (genesisReceiver.checks smallNet (childOf aliceBlock) = .valid ∧
      genesisReceiver.orphaned smallNet (childOf aliceBlock) = true) ∧
      ((childFirst aliceBlock).processBlock smallNet smallCall aliceBlock.block).toOption.map
        (fun x => (x.1, x.2.mapOrphanBlocks)) = some (true, []) := by
    decide +kernel
  obtain ⟨⟨hchecks, horphan⟩, hrun⟩ := hfacts
  obtain ⟨⟨b, r'⟩, hcall, hvalue⟩ := Except.toOption_map_eq_some_iff.mp hrun
  obtain ⟨rfl, hempty⟩ := Prod.mk.inj hvalue
  have hcons := process_consistent_iff (reach_childFirst hchecks horphan) hcall
  refine ⟨r', hcall, rfl, hcons.2.2.2.mp ?_, hempty⟩
  intro entry hentry
  rw [hempty] at hentry
  cases hentry

/-- A parent that is entered and then rejected leaves its child in the maps. -/
theorem process_leaves_orphan :
    ∃ r r', (receiveSystem smallNet).Reach (CallsSettle smallNet) r ∧
      r.processBlock smallNet smallCall (unsignedOn smallGenesis).block = .ok (false, r') ∧
      (9, childOf (unsignedOn smallGenesis)) ∈ r'.mapOrphanBlocks ∧
      r'.known smallNet (childOf (unsignedOn smallGenesis)).hashPrevBlock = true ∧
      ¬r'.Parentless smallNet := by
  have hfacts : (genesisReceiver.checks smallNet (childOf (unsignedOn smallGenesis)) = .valid ∧
      genesisReceiver.orphaned smallNet (childOf (unsignedOn smallGenesis)) = true) ∧
      ((childFirst (unsignedOn smallGenesis)).processBlock smallNet smallCall
        (unsignedOn smallGenesis).block).toOption.map
        (fun x => (x.1, x.2.mapOrphanBlocks,
          x.2.known smallNet (childOf (unsignedOn smallGenesis)).hashPrevBlock)) =
        some (false, [(9, childOf (unsignedOn smallGenesis))], true) := by
    decide +kernel
  obtain ⟨⟨hchecks, horphan⟩, hrun⟩ := hfacts
  obtain ⟨⟨b, r'⟩, hcall, hvalue⟩ := Except.toOption_map_eq_some_iff.mp hrun
  simp only [Prod.mk.injEq] at hvalue
  obtain ⟨rfl, hmap, hknown⟩ := hvalue
  have hmem : (9, childOf (unsignedOn smallGenesis)) ∈ r'.mapOrphanBlocks := by
    rw [hmap]
    exact List.mem_singleton_self _
  refine ⟨_, r', reach_childFirst hchecks horphan, hcall, hmem, hknown, fun hfree => ?_⟩
  have hnone := hfree _ hmem
  rw [hknown] at hnone
  cases hnone

end Runs

end CoMoNet
