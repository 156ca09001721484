import MinBFT.Messages

/-!
# Prepared requests of a new-view certificate

`extractPreparedRequests` of `new-view.go`: from each ViewChange of the certificate take the message
log without its leading ViewChange, keep the longest, and replay the proposals it commits to. A
proposal that is itself a NewView starts the replay over from that NewView's certificate. When no
log commits to anything, the leading ViewChanges form the certificate of the view before.

The source recurses through certificates nested in messages. The recursion here is bounded by the
nesting depth, which is always enough: `extractPreparedRequests_eq` is the source's own equation.
`none` stands for the source's panic on a log entry that is no proposal.
-/

namespace MinBFT

def longer (maxLog l : List CertifiedMessage) : List CertifiedMessage :=
  if maxLog.length < l.length then l else maxLog

/-- One iteration over the certificate; the accumulators are `vcs` and `maxLog`. -/
def scanStep (acc : List ViewChange × List CertifiedMessage) (vc : ViewChange) :
    List ViewChange × List CertifiedMessage :=
  match vc.messageLog with
  | [] => acc
  | .viewChange leading :: l => (acc.1 ++ [leading], longer acc.2 l)
  | l => (acc.1, longer acc.2 l)

def scanCert (cert : List ViewChange) : List ViewChange × List CertifiedMessage :=
  cert.foldl scanStep ([], [])

def CertifiedMessage.proposed : CertifiedMessage → CertifiedMessage
  | .commit m => m.proposal
  | m => m

def replayStep (extract : List ViewChange → Option (List Request)) (prepared : List Request)
    (m : CertifiedMessage) : Option (List Request) :=
  match m.proposed with
  | .prepare p => some (prepared ++ [p.request])
  | .newView nv => extract nv.newViewCert
  | _ => none

def extractStep (extract : List ViewChange → Option (List Request)) (cert : List ViewChange) :
    Option (List Request) :=
  let vcs := (scanCert cert).1
  let maxLog := (scanCert cert).2
  if maxLog.length = 0 ∧ 0 < vcs.length then extract vcs
  else maxLog.foldlM (replayStep extract) []

def extractBounded : ℕ → List ViewChange → Option (List Request)
  | 0, _ => none
  | d + 1, cert => extractStep (extractBounded d) cert

def extractPreparedRequests (cert : List ViewChange) : Option (List Request) :=
  extractBounded (certDepth cert + 1) cert

theorem replayStep_prepare {extract : List ViewChange → Option (List Request)}
    {prepared : List Request} {m : CertifiedMessage} {p : Prepare} (h : m.proposed = .prepare p) :
    replayStep extract prepared m = some (prepared ++ [p.request]) := by
  rw [replayStep, h]

theorem replayStep_newView {extract : List ViewChange → Option (List Request)}
    {prepared : List Request} {m : CertifiedMessage} {nv : NewView}
    (h : m.proposed = .newView nv) :
    replayStep extract prepared m = extract nv.newViewCert := by
  rw [replayStep, h]

def leadingViewChange : List CertifiedMessage → Option ViewChange
  | .viewChange vc :: _ => some vc
  | _ => none

def withoutLeading : List CertifiedMessage → List CertifiedMessage
  | .viewChange _ :: l => l
  | l => l

theorem scanStep_eq (acc : List ViewChange × List CertifiedMessage) (vc : ViewChange) :
    scanStep acc vc = (acc.1 ++ (leadingViewChange vc.messageLog).toList,
      longer acc.2 (withoutLeading vc.messageLog)) := by
  unfold scanStep
  cases vc.messageLog with
  | nil => simp [leadingViewChange, withoutLeading, longer]
  | cons m l => cases m <;> simp [leadingViewChange, withoutLeading]

theorem foldl_scanStep (cert : List ViewChange) (acc : List ViewChange × List CertifiedMessage) :
    cert.foldl scanStep acc =
      (acc.1 ++ cert.filterMap fun vc => leadingViewChange vc.messageLog,
        (cert.map fun vc => withoutLeading vc.messageLog).foldl longer acc.2) := by
  induction cert generalizing acc with
  | nil => simp
  | cons vc cert ih =>
      rw [List.foldl_cons, ih, scanStep_eq]
      cases h : leadingViewChange vc.messageLog <;> simp [h]

theorem scanCert_fst (cert : List ViewChange) :
    (scanCert cert).1 = cert.filterMap fun vc => leadingViewChange vc.messageLog := by
  simp [scanCert, foldl_scanStep]

theorem scanCert_snd (cert : List ViewChange) :
    (scanCert cert).2 = (cert.map fun vc => withoutLeading vc.messageLog).foldl longer [] := by
  simp [scanCert, foldl_scanStep]

theorem length_longer (a b : List CertifiedMessage) :
    (longer a b).length = max a.length b.length := by
  unfold longer
  split_ifs <;> omega

theorem foldl_longer_mem (logs : List (List CertifiedMessage)) (a : List CertifiedMessage) :
    logs.foldl longer a = a ∨ logs.foldl longer a ∈ logs := by
  induction logs generalizing a with
  | nil => exact Or.inl rfl
  | cons l logs ih =>
      rw [List.foldl_cons]
      rcases ih (longer a l) with h | h
      · rw [h]
        unfold longer
        split_ifs
        · exact Or.inr List.mem_cons_self
        · exact Or.inl rfl
      · exact Or.inr (List.mem_cons_of_mem l h)

theorem length_le_foldl_longer (logs : List (List CertifiedMessage)) (a : List CertifiedMessage) :
    a.length ≤ (logs.foldl longer a).length ∧
      ∀ l ∈ logs, l.length ≤ (logs.foldl longer a).length := by
  induction logs generalizing a with
  | nil => simp
  | cons l logs ih =>
      rw [List.foldl_cons]
      obtain ⟨hacc, hmem⟩ := ih (longer a l)
      rw [length_longer] at hacc
      refine ⟨by omega, ?_⟩
      intro x hx
      rcases List.mem_cons.mp hx with rfl | hx
      · omega
      · exact hmem x hx

/-- The longest log is one of the certificate's, or empty. -/
theorem maxLog_mem (cert : List ViewChange) :
    (scanCert cert).2 = [] ∨ ∃ vc ∈ cert, (scanCert cert).2 = withoutLeading vc.messageLog := by
  rw [scanCert_snd]
  rcases foldl_longer_mem (cert.map fun vc => withoutLeading vc.messageLog) [] with h | h
  · exact Or.inl h
  · obtain ⟨vc, hvc, heq⟩ := List.mem_map.mp h
    exact Or.inr ⟨vc, hvc, heq.symm⟩

theorem length_le_maxLog {cert : List ViewChange} {vc : ViewChange} (h : vc ∈ cert) :
    (withoutLeading vc.messageLog).length ≤ (scanCert cert).2.length := by
  rw [scanCert_snd]
  exact (length_le_foldl_longer _ []).2 _ (List.mem_map.mpr ⟨vc, h, rfl⟩)

theorem withoutLeading_eq_nil {cert : List ViewChange} (hmax : (scanCert cert).2 = [])
    {vc : ViewChange} (hvc : vc ∈ cert) : withoutLeading vc.messageLog = [] := by
  have hle := length_le_maxLog hvc
  rw [hmax] at hle
  exact List.length_eq_zero_iff.mp (Nat.le_zero.mp hle)

theorem mem_of_leadingViewChange {l : List CertifiedMessage} {vc : ViewChange}
    (h : leadingViewChange l = some vc) : CertifiedMessage.viewChange vc ∈ l := by
  cases l with
  | nil => cases h
  | cons m l => cases m <;> simp_all [leadingViewChange]

theorem mem_of_mem_withoutLeading {l : List CertifiedMessage} {m : CertifiedMessage}
    (h : m ∈ withoutLeading l) : m ∈ l := by
  cases l with
  | nil => exact h
  | cons a l => cases a <;> simp_all [withoutLeading]

theorem map_replicaID_leading {cert : List ViewChange}
    (h : ∀ vc ∈ cert, ∃ leading, leadingViewChange vc.messageLog = some leading ∧
      leading.replicaID = vc.replicaID) :
    (scanCert cert).1.map (·.replicaID) = cert.map (·.replicaID) := by
  rw [scanCert_fst]
  induction cert with
  | nil => rfl
  | cons vc cert ih =>
      obtain ⟨leading, hlead, hid⟩ := h vc List.mem_cons_self
      rw [List.filterMap_cons, hlead]
      simp only [List.map_cons, hid]
      rw [ih fun x hx => h x (List.mem_cons_of_mem vc hx)]

theorem CertifiedMessage.depth_proposed_le (m : CertifiedMessage) :
    m.proposed.depth ≤ m.depth := by
  cases m with
  | commit m =>
      rw [CertifiedMessage.depth]
      exact m.depth_proposal_lt.le
  | _ => exact le_rfl

theorem certDepth_leading_lt {cert : List ViewChange} (h : 0 < (scanCert cert).1.length) :
    certDepth (scanCert cert).1 < certDepth cert := by
  rw [scanCert_fst] at h ⊢
  have hdeep : ∀ vc ∈ cert.filterMap fun vc => leadingViewChange vc.messageLog,
      vc.depth < certDepth cert := by
    intro leading hl
    obtain ⟨vc, hvc, hlead⟩ := List.mem_filterMap.mp hl
    have hlt := ViewChange.depth_lt_of_mem (mem_of_leadingViewChange hlead)
    rw [CertifiedMessage.depth] at hlt
    exact hlt.trans_le (depth_le_certDepth hvc)
  obtain ⟨leading, hl⟩ := List.exists_mem_of_length_pos h
  have hpos := hdeep leading hl
  have hle := certDepth_le fun vc hvc => Nat.le_sub_one_of_lt (hdeep vc hvc)
  omega

theorem certDepth_newView_lt {cert : List ViewChange} {m : CertifiedMessage} {nv : NewView}
    (h : m ∈ (scanCert cert).2) (hnv : m.proposed = .newView nv) :
    certDepth nv.newViewCert < certDepth cert := by
  rcases maxLog_mem cert with hnil | ⟨vc, hvc, heq⟩
  · rw [hnil] at h
    cases h
  · have hm := ViewChange.depth_lt_of_mem (mem_of_mem_withoutLeading (heq ▸ h))
    have hp := m.depth_proposed_le
    rw [hnv, CertifiedMessage.depth] at hp
    have := nv.certDepth_lt
    have := depth_le_certDepth hvc
    omega

theorem foldlM_replayStep_congr {extract extract' : List ViewChange → Option (List Request)}
    (log : List CertifiedMessage) (prepared : List Request)
    (h : ∀ m ∈ log, ∀ nv, m.proposed = .newView nv →
      extract nv.newViewCert = extract' nv.newViewCert) :
    log.foldlM (replayStep extract) prepared = log.foldlM (replayStep extract') prepared := by
  induction log generalizing prepared with
  | nil => rfl
  | cons m log ih =>
      have hstep : replayStep extract prepared m = replayStep extract' prepared m := by
        unfold replayStep
        split
        · rfl
        · exact h m List.mem_cons_self _ ‹_›
        · rfl
      rw [List.foldlM_cons, List.foldlM_cons, hstep]
      congr 1
      funext x
      exact ih x fun m' hm' => h m' (List.mem_cons_of_mem m hm')

/-- A step only asks for certificates nested strictly deeper. -/
theorem extractStep_congr {extract extract' : List ViewChange → Option (List Request)}
    {cert : List ViewChange}
    (h : ∀ c, certDepth c < certDepth cert → extract c = extract' c) :
    extractStep extract cert = extractStep extract' cert := by
  unfold extractStep
  dsimp only
  split_ifs with hempty
  · exact h _ (certDepth_leading_lt hempty.2)
  · exact foldlM_replayStep_congr _ _ fun m hm nv hnv => h _ (certDepth_newView_lt hm hnv)

theorem extractBounded_eq {d d' : ℕ} {cert : List ViewChange} (h : certDepth cert < d)
    (h' : certDepth cert < d') : extractBounded d cert = extractBounded d' cert := by
  induction d generalizing d' cert with
  | zero => omega
  | succ d ih =>
      cases d' with
      | zero => omega
      | succ d' =>
          rw [extractBounded, extractBounded]
          exact extractStep_congr fun c hc => ih (by omega) (by omega)

theorem extractPreparedRequests_eq (cert : List ViewChange) :
    extractPreparedRequests cert = extractStep extractPreparedRequests cert := by
  rw [extractPreparedRequests, extractBounded]
  exact extractStep_congr fun c hc => extractBounded_eq (by omega) (by omega)

/-- Replaying a log: the requests its proposals prepare, in order. -/
def replay (log : List CertifiedMessage) : Option (List Request) :=
  log.foldlM (replayStep extractPreparedRequests) []

theorem extract_of_maxLog_ne_nil {cert : List ViewChange} (h : (scanCert cert).2 ≠ []) :
    extractPreparedRequests cert = replay (scanCert cert).2 := by
  rw [extractPreparedRequests_eq, extractStep, if_neg]
  · rfl
  · rintro ⟨hlen, _⟩
    exact h (List.length_eq_zero_iff.mp hlen)

theorem extract_of_maxLog_nil {cert : List ViewChange} (h : (scanCert cert).2 = [])
    (hvcs : (scanCert cert).1 ≠ []) :
    extractPreparedRequests cert = extractPreparedRequests (scanCert cert).1 := by
  rw [extractPreparedRequests_eq, extractStep, if_pos]
  exact ⟨by rw [h]; rfl, List.length_pos_iff.mpr hvcs⟩

theorem extract_of_empty {cert : List ViewChange} (h : (scanCert cert).2 = [])
    (hvcs : (scanCert cert).1 = []) : extractPreparedRequests cert = some [] := by
  rw [extractPreparedRequests_eq, extractStep]
  simp [h, hvcs]

def CertifiedMessage.preparedRequest (m : CertifiedMessage) : Option Request :=
  match m.proposed with
  | .prepare p => some p.request
  | _ => none

theorem replay_append (a b : List CertifiedMessage) :
    replay (a ++ b) = (replay a).bind fun prepared =>
      b.foldlM (replayStep extractPreparedRequests) prepared := by
  rw [replay, List.foldlM_append]
  rfl

theorem foldlM_replayStep_prepares {extract : List ViewChange → Option (List Request)}
    {log : List CertifiedMessage} (h : ∀ m ∈ log, ∃ p, m.proposed = .prepare p)
    (prepared : List Request) :
    log.foldlM (replayStep extract) prepared =
      some (prepared ++ log.filterMap CertifiedMessage.preparedRequest) := by
  induction log generalizing prepared with
  | nil => simp
  | cons m log ih =>
      obtain ⟨p, hp⟩ := h m List.mem_cons_self
      have hreq : m.preparedRequest = some p.request := by
        rw [CertifiedMessage.preparedRequest, hp]
      rw [List.foldlM_cons, replayStep_prepare hp, List.filterMap_cons_some hreq]
      change log.foldlM (replayStep extract) (prepared ++ [p.request]) = _
      rw [ih (fun x hx => h x (List.mem_cons_of_mem m hx))]
      simp

theorem replay_prepares {log : List CertifiedMessage}
    (h : ∀ m ∈ log, ∃ p, m.proposed = .prepare p) :
    replay log = some (log.filterMap CertifiedMessage.preparedRequest) := by
  rw [replay, foldlM_replayStep_prepares h, List.nil_append]

theorem replay_newView_cons {m : CertifiedMessage} {nv : NewView} {log : List CertifiedMessage}
    (hm : m.proposed = .newView nv) (h : ∀ m ∈ log, ∃ p, m.proposed = .prepare p) :
    replay (m :: log) = (extractPreparedRequests nv.newViewCert).map
      (· ++ log.filterMap CertifiedMessage.preparedRequest) := by
  rw [replay, List.foldlM_cons, replayStep_newView hm]
  cases extractPreparedRequests nv.newViewCert with
  | none => rfl
  | some prepared => exact foldlM_replayStep_prepares h prepared

theorem replay_congr {log log' : List CertifiedMessage}
    (h : log.map CertifiedMessage.proposed = log'.map CertifiedMessage.proposed) :
    replay log = replay log' := by
  have key : ∀ l : List CertifiedMessage, replay l =
      (l.map CertifiedMessage.proposed).foldlM (fun prepared m => match m with
        | .prepare p => some (prepared ++ [p.request])
        | .newView nv => extractPreparedRequests nv.newViewCert
        | _ => none) [] := by
    intro l
    rw [replay, List.foldlM_map]
    rfl
  rw [key, key, h]

end MinBFT
