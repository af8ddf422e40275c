import XCryptoSsh.KexTranscript

namespace XCryptoSsh
open Go Call List Transport
set_option autoImplicit true

namespace Transport

variable {κ : Type} {t t' t'' : Transport κ}

def isNewKeys : Except Err Bytes → Bool
  | .ok p => p.head? == some msgNewKeys
  | .error _ => false

theorem not_isNewKeys_of_noise (h : noise r = true) : isNewKeys r = false := by
  cases r with
  | error e => rfl
  | ok p =>
    simp only [noise, Bool.or_eq_true, beq_iff_eq] at h
    rcases h with h | h <;> simp only [isNewKeys, h] <;> rfl

/-- From a reader without a new cipher, `reads` packets are returned, none of them NEWKEYS, and
`writes` are written. -/
def Traffic (reads writes : Nat) (t t' : Transport κ) : Prop :=
  t.reader.pendingKeyChange = none → ∃ read, t.incoming = read ++ t'.incoming ∧
    read.countP (!noise ·) = reads ∧ (∀ r ∈ read, isNewKeys r = false) ∧
    t'.reader.pendingKeyChange = none ∧
    t'.reader.seqNum = t.reader.seqNum + .ofNat read.length ∧
    t'.writer.seqNum = t.writer.seqNum + .ofNat writes

theorem Traffic.refl (t : Transport κ) : Traffic 0 0 t t := fun h =>
  ⟨[], rfl, rfl, nofun, h, (UInt32.add_zero _).symm, (UInt32.add_zero _).symm⟩

theorem Traffic.trans (h : Traffic a b t t') (h' : Traffic c d t' t'') :
    Traffic (a + c) (b + d) t t'' := by
  intro hn
  obtain ⟨read, h₁, h₂, h₃, h₄, h₅, h₆⟩ := h hn
  obtain ⟨read', h₁', h₂', h₃', h₄', h₅', h₆'⟩ := h' h₄
  refine ⟨read ++ read', ?_, ?_, ?_, h₄', ?_, ?_⟩
  · rw [h₁, h₁', append_assoc]
  · rw [countP_append, h₂, h₂']
  · exact forall_mem_append.mpr ⟨h₃, h₃'⟩
  · rw [h₅', h₅, length_append, UInt32.ofNat_add, UInt32.add_assoc]
  · rw [h₆', h₆, UInt32.ofNat_add, UInt32.add_assoc]

theorem Traffic.readPacket (h : readPacket t = (.ok p, t')) : Traffic 1 0 t t' := by
  intro hn
  obtain ⟨hread, hw⟩ := readPacket_eq_ok h
  obtain ⟨dropped, hin, hdropped, hp, hseq, hpending⟩ := readFrom_eq_ok hread
  refine ⟨dropped ++ [.ok p], ?_, ?_, ?_, (hpending hn).2, ?_, ?_⟩
  · rw [hin, append_assoc, singleton_append]
  · have hzero : dropped.countP (!noise ·) = 0 :=
      countP_eq_zero.mpr fun r hr => by simp [hdropped r hr]
    rw [countP_append, hzero, countP_singleton]
    simp [hp]
  · refine forall_mem_append.mpr ⟨fun r hr => not_isNewKeys_of_noise (hdropped r hr), ?_⟩
    simpa [isNewKeys] using (hpending hn).1
  · rw [hseq, length_append, length_singleton]
  · rw [hw]
    exact (UInt32.add_zero _).symm

theorem Traffic.writePacket (h : writePacket p t = (.ok u, t')) : Traffic 0 1 t t' := by
  intro hn
  obtain ⟨-, hin, hr, hw⟩ := writePacket_eq_ok h
  rw [hr]
  exact ⟨[], hin.symm, rfl, nofun, hn, (UInt32.add_zero _).symm, hw⟩

end Transport

namespace Handshake

variable {κ : Type} {env : KexEnv κ} {h : Handshake} {t t' : Transport κ}

theorem traffic_skipGuess (hrun : skipGuess wrong t = (.ok u, t')) :
    Traffic wrong.toNat 0 t t' := by
  cases wrong with
  | false =>
    cases hrun
    exact .refl t
  | true =>
    obtain ⟨p, t₁, h₁, h₂⟩ := bind_eq_ok.mp hrun
    cases h₂
    exact .readPacket h₁

theorem traffic_exchange (hrun : h.exchange env other t = (.ok r, t')) :
    ∃ otherInit, unmarshal kexInitMsg other = .ok otherInit ∧
      Traffic ((h.wrongGuess otherInit).toNat + 1) 1 t t' := by
  obtain ⟨otherInit, hinit, hrun⟩ := ofExcept_bind_eq_ok.mp hrun
  obtain ⟨algs, -, hrun⟩ := ofExcept_bind_eq_ok.mp hrun
  obtain ⟨_, t₁, hskip, hrun⟩ := bind_eq_ok.mp hrun
  obtain ⟨kex, -, hrun⟩ := orFail_bind_eq_ok.mp hrun
  refine ⟨otherInit, hinit, (Nat.zero_add 1) ▸ (traffic_skipGuess hskip).trans ?_⟩
  split at hrun
  all_goals
    obtain ⟨result, t₂, hround, hrun⟩ := bind_eq_ok.mp hrun
    cases hrun
  · obtain ⟨i, -, hround⟩ := inRange_bind_eq_ok.mp hround
    obtain ⟨t₃, packet, reply, hread, -, hwrite⟩ := KexAlgorithm.server_eq_ok.mp hround
    exact (Traffic.readPacket hread).trans (.writePacket hwrite)
  · obtain ⟨t₃, packet, hwrite, hread, -⟩ := KexAlgorithm.client_eq_ok.mp (client_eq_ok.mp hround).1
    exact (Traffic.writePacket hwrite).trans (.readPacket hread)

/-- The first packet that is not dropped announces a guess of the method that turns out wrong. -/
def skips (h : Handshake) (delivered : List (Except Err Bytes)) : Bool :=
  match delivered.find? (!noise ·) with
  | some (.ok other) => (unmarshal kexInitMsg other).toOption.any h.wrongGuess
  | _ => false

/-- What is delivered before NEWKEYS beyond the two packets of a key exchange: IGNORE and DEBUG, and
one packet that is skipped as a wrong guess. -/
def surplus (h : Handshake) (delivered : List (Except Err Bytes)) : Nat :=
  (delivered.takeWhile (!isNewKeys ·)).countP noise + (h.skips delivered).toNat

theorem seqNum_of_changeKeys (hrun : changeKeys env algs result t = (.ok u, t')) :
    ∃ dropped p, t.incoming = dropped ++ .ok p :: t'.incoming ∧ (∀ r ∈ dropped, noise r = true) ∧
      isNewKeys (.ok p) = true ∧ t'.reader.seqNum = t.reader.seqNum + .ofNat (dropped.length + 1) ∧
      t'.writer.seqNum = t.writer.seqNum + 1 := by
  obtain ⟨_, t₁, h₁, hrun⟩ := bind_eq_ok.mp hrun
  obtain ⟨_, t₂, h₂, hrun⟩ := bind_eq_ok.mp hrun
  obtain ⟨p, t₃, h₃, hrun⟩ := bind_eq_ok.mp hrun
  obtain ⟨hp, rfl⟩ := failIf_eq_ok.mp hrun
  obtain ⟨hin₁, hr₁, hw₁⟩ := prepareKeyChange_eq_ok h₁
  obtain ⟨-, hin₂, hr₂, hw₂⟩ := writePacket_eq_ok h₂
  obtain ⟨hread, hw₃⟩ := readPacket_eq_ok h₃
  obtain ⟨dropped, hin, hdropped, -, hseq, -⟩ := readFrom_eq_ok hread
  refine ⟨dropped, p, ?_, hdropped, by simpa [isNewKeys] using hp, ?_, ?_⟩
  · rw [← hin₁, ← hin₂, hin]
  · rw [hseq, hr₂, hr₁]
  · rw [hw₃, hw₂, hw₁]

theorem seqNum_of_firstKeyExchange {isClient : Bool}
    (hrun : h.firstKeyExchange env (new unkeyed isClient delivered) = (.ok r, t)) :
    t.reader.seqNum = .ofNat (h.surplus delivered + 3) ∧ t.writer.seqNum = 3 := by
  obtain ⟨_, t₁, h₁, hrun⟩ := bind_eq_ok.mp hrun
  obtain ⟨other, t₂, h₂, hrun⟩ := bind_eq_ok.mp hrun
  obtain ⟨_, t₃, h₃, hrun⟩ := bind_eq_ok.mp hrun
  obtain ⟨-, rfl⟩ := failIf_eq_ok.mp h₃
  obtain ⟨t₄, hexchange, hchange⟩ := enterKeyExchange_eq_ok.mp hrun
  obtain ⟨otherInit, hinit, htraffic⟩ := traffic_exchange hexchange
  -- the packet that is unmarshalled is the first one kept
  have hskips : h.skips delivered = h.wrongGuess otherInit := by
    obtain ⟨-, hin₁, -⟩ := writePacket_eq_ok h₁
    have hfind : delivered.find? (!noise ·) = some (.ok other) := by
      rw [← head?_filter, ← show t₁.incoming = delivered from hin₁, kept_of_readPacket h₂]
      rfl
    rw [skips, hfind]
    simp [hinit, Except.toOption]
  obtain ⟨read, hin, hreads, hold, -, hseq, hwrites⟩ :=
    (((Traffic.writePacket h₁).trans (.readPacket h₂)).trans htraffic) rfl
  obtain ⟨dropped, p, hin', hdropped, hp, hseq', hwrites'⟩ := seqNum_of_changeKeys hchange
  have hbefore : delivered.takeWhile (!isNewKeys ·) = read ++ dropped := by
    rw [show delivered = read ++ _ from hin, hin', ← append_assoc, takeWhile_append_of_pos,
      takeWhile_cons_of_neg (by simp [hp]), append_nil]
    intro r hr
    rcases mem_append.mp hr with hr | hr
    · simp [hold r hr]
    · simp [not_isNewKeys_of_noise (hdropped r hr)]
  have hlength : read.length + (dropped.length + 1) = h.surplus delivered + 3 := by
    have hcount := length_eq_countP_add_countP noise (l := read)
    simp only [decide_not, Bool.decide_eq_true] at hcount
    rw [surplus, hskips, hbefore, countP_append, countP_eq_length.mpr hdropped]
    omega
  constructor
  · rw [hseq', hseq, UInt32.add_assoc, ← UInt32.ofNat_add, hlength]
    exact UInt32.zero_add _
  · rw [hwrites', hwrites]
    rfl

/-- The sequence numbers agree exactly when the surplus of what is delivered to each end is a
multiple of 2^32, as it is without IGNORE, DEBUG and skipped guesses. -/
theorem seqNum_agree_iff (env env' : KexEnv κ) (client server : Handshake)
    (hc : client.firstKeyExchange env (new unkeyed true toClient) =
      (.ok (algs, result), tc))
    (hs : server.firstKeyExchange env' (new unkeyed false toServer) =
      (.ok (algs', result'), ts))
    (_ : result.H = result'.H) :
    (ts.reader.seqNum = tc.writer.seqNum ∧ tc.reader.seqNum = ts.writer.seqNum) ↔
      2 ^ 32 ∣ server.surplus toServer ∧ 2 ^ 32 ∣ client.surplus toClient := by
  obtain ⟨hcr, hcw⟩ := seqNum_of_firstKeyExchange hc
  obtain ⟨hsr, hsw⟩ := seqNum_of_firstKeyExchange hs
  have heq (n : Nat) : UInt32.ofNat (n + 3) = 3 ↔ 2 ^ 32 ∣ n := by
    rw [← UInt32.toNat_inj, UInt32.toNat_ofNat']
    change (n + 3) % 2 ^ 32 = 3 ↔ _
    omega
  rw [hcr, hcw, hsr, hsw, heq, heq]

def openClient : Handshake := openHandshake "ssh-ed25519" []

def openServer : Handshake := openHandshake "ssh-ed25519" [ed25519Signer]

def openRun (h : Handshake) (isClient : Bool) (delivered : List Bytes) :
    Result Err (Algorithms × HostKexResult) × Transport Unit :=
  h.firstKeyExchange openEnv (new () isClient (delivered.map .ok))

def fromClient : List Bytes :=
  (openRun openClient true [kexInitMsg.encode (openInit "ssh-ed25519")]).2.outgoing ++ [[21]]

def fromServer : List Bytes := (openRun openServer false fromClient).2.outgoing

def exchangeHash : Result Err (Algorithms × HostKexResult) → Bytes
  | .ok r => r.2.H
  | _ => []

theorem exists_openRun (side : Handshake) (b : Bool) (delivered : List Bytes)
    (h : (openRun side b delivered).1.test (fun _ => true) = true) :
    ∃ algs result t, openRun side b delivered = (.ok (algs, result), t) := by
  obtain ⟨⟨algs, result⟩, t, hr, -⟩ := exists_of_test (x := side.firstKeyExchange openEnv) h
  exact ⟨algs, result, t, hr⟩

/-- The attacker puts one IGNORE in front of the packets of the server and changes nothing else. -/
theorem seqNum_disagree :
    ∃ algs result tc algs' result' ts,
      openClient.firstKeyExchange openEnv
          (new () true (.ok [2] :: ts.outgoing.map .ok)) = (.ok (algs, result), tc) ∧
        openServer.firstKeyExchange openEnv (new () false (tc.outgoing.map .ok)) =
          (.ok (algs', result'), ts) ∧
        result.H = result'.H ∧ tc.reader.seqNum = 4 ∧ ts.writer.seqNum = 3 := by
  obtain ⟨algs, result, tc, hc⟩ :=
    exists_openRun openClient true ([2] :: fromServer) (by decide +kernel)
  obtain ⟨algs', result', ts, hs⟩ :=
    exists_openRun openServer false fromClient (by decide +kernel)
  have hH : exchangeHash (openRun openClient true ([2] :: fromServer)).1 =
      exchangeHash (openRun openServer false fromClient).1 := by
    decide +kernel
  have hsent : (openRun openClient true ([2] :: fromServer)).2.outgoing = fromClient := by
    decide +kernel
  have hseq : (openRun openClient true ([2] :: fromServer)).2.reader.seqNum = 4 := by
    decide +kernel
  have hseq' : (openRun openServer false fromClient).2.writer.seqNum = 3 := by decide +kernel
  have hts : fromServer = ts.outgoing := congrArg (fun x => x.2.outgoing) hs
  rw [hc] at hsent hH hseq
  rw [hs] at hH hseq'
  refine ⟨algs, result, tc, algs', result', ts, ?_, ?_, hH, hseq, hseq'⟩
  · rw [← hts]
    exact hc
  · rw [hsent]
    exact hs

theorem seqNum_agree_honest :
    ∃ algs result tc algs' result' ts,
      openClient.firstKeyExchange openEnv (new () true (fromServer.map .ok)) =
          (.ok (algs, result), tc) ∧
        openServer.firstKeyExchange openEnv (new () false (fromClient.map .ok)) =
          (.ok (algs', result'), ts) ∧
        ts.reader.seqNum = tc.writer.seqNum ∧ tc.reader.seqNum = ts.writer.seqNum := by
  obtain ⟨algs, result, tc, hc⟩ :=
    exists_openRun openClient true fromServer (by decide +kernel)
  obtain ⟨algs', result', ts, hs⟩ :=
    exists_openRun openServer false fromClient (by decide +kernel)
  have hH : exchangeHash (openRun openClient true fromServer).1 =
      exchangeHash (openRun openServer false fromClient).1 := by
    decide +kernel
  rw [hc, hs] at hH
  exact ⟨algs, result, tc, algs', result', ts, hc, hs,
    (seqNum_agree_iff openEnv openEnv openClient openServer hc hs hH).mpr (by decide +kernel)⟩

end Handshake
end XCryptoSsh
