import ThyristorController.Utilities.YmodemSender

/-!
# Receiving several files with YMODEM (`components/utilities/ymodem/ymodem.c`)

A conforming sender sends each header and data block, and the two ends of transmission behind a file, when the last one
has been answered; a last, empty header tells that there are no more files. The header of the first file is read in
`_rym_do_handshake`. Those behind it are read in `_rym_do_fin`, which takes all of them for the short form:
`batch_received` says what becomes of the files if they have it, and what of a header of the long form.
-/

namespace ThyristorController.Ymodem

open Duplex

/-- A file in a batch. Its header begins with its name. -/
structure BatchFile where
  header : Block
  blocks : List Block
  named : header.payload.getD 0 0 ≠ 0

/-- The empty header. -/
def terminator (f : Form) : Block := ⟨f, List.replicate f.size 0, List.length_replicate⟩

/-- Something that a sender sends, and the answer that it then waits for. -/
abbrev Round := List Byte × List Byte

/-- The data blocks, the first of which has the number `index`. -/
def dataRounds (index : Nat) : List Block → List Round
  | [] => []
  | b :: bs => (b.packet (BitVec.ofNat 8 index), [rymCodeAck]) :: dataRounds (index + 1) bs

def BatchFile.rounds (f : BatchFile) : List Round :=
  (f.header.packet 0, [rymCodeAck, rymCodeC]) ::
    (dataRounds 1 f.blocks ++ [([rymCodeEot], [rymCodeNak]), ([rymCodeEot], [rymCodeAck, rymCodeC])])

/-- A sender that waits for the rest of an answer; `script` is to come behind it. -/
structure BatchSender where
  awaiting : List Byte
  script : List Round
  failed : Bool
  deriving DecidableEq

namespace BatchSender

/-- The sender waits for an invitation. -/
def start (files : List BatchFile) (last : Form) : BatchSender :=
  ⟨[rymCodeC], files.flatMap BatchFile.rounds ++ [((terminator last).packet 0, [rymCodeAck])], false⟩

/-- With the last byte of an answer, the sender goes on; it skips further invitations. -/
def react (s : BatchSender) (b : Byte) : BatchSender × List Byte :=
  match s.awaiting with
  | [] => (s, [])
  | a :: more =>
    if b = a then
      if more = [] then
        match s.script with
        | [] => ({ s with awaiting := [] }, [])
        | (bytes, answer) :: rest => ({ s with awaiting := answer, script := rest }, bytes)
      else ({ s with awaiting := more }, [])
    else if b = rymCodeC then (s, [])
    else ({ s with failed := true }, [])

def halted (s : BatchSender) : Bool := s.failed || s.awaiting.isEmpty

end BatchSender

/-- A conforming sender. -/
def batchSender : Party BatchSender Byte where
  halted := BatchSender.halted
  react := BatchSender.react

/-- The first 128 bytes of the last block. -/
def lastFront (front : List Byte) : List Block → List Byte
  | [] => front
  | b :: bs => lastFront (b.payload.take 128) bs

/-- The calls for a file. -/
def BatchFile.calls (f : BatchFile) : List Call :=
  .onBegin f.header.payload ::
    (f.blocks.map (fun b => .onData b.payload) ++ [.onEnd (lastFront (f.header.payload.take 128) f.blocks)])

/-- The receiver has returned `RT_EOK` with the calls for these files, and the sender has had all its answers. -/
def Received (files : List BatchFile) (s : Link BatchSender Recv Byte) : Prop :=
  s.right.pc = .returned rtEok ∧ s.right.calls = files.flatMap BatchFile.calls ∧ s.left = ⟨[], [], false⟩

/-- Behind the first 128 bytes of the payload there happens to be their checksum. -/
def Block.SumInside (b : Block) : Prop :=
  (b.payload.getD 128 0).setWidth 16 <<< 8 ||| (b.payload.getD 129 0).setWidth 16 = crc16 (b.payload.take 128)

instance (b : Block) : Decidable b.SumInside := by
  unfold Block.SumInside
  infer_instance

/-! ## Rounds -/

section lemmas

variable {τ : Type} {B : Party τ Byte} {r r' r'' : τ} {script script' : List Round} {bytes ans bytes' ans' : List Byte}
  {n tmRecv : Nat} {answer : List Call → Byte} {junk : List Byte}

/-- The other party gives the answer of every round. -/
inductive Follows (B : Party τ Byte) : τ → List Round → τ → Prop
  | nil (r : τ) : Follows B r [] r
  | cons {r r' r'' : τ} {bytes ans : List Byte} {script : List Round} : Takes B r bytes ans r' → ans ≠ [] →
    Follows B r' script r'' → Follows B r ((bytes, ans) :: script) r''

theorem Follows.append (h₁ : Follows B r script r') (h₂ : Follows B r' script' r'') :
    Follows B r (script ++ script') r'' := by
  induction h₁ with
  | nil => exact h₂
  | cons htakes hans _ ih => exact .cons htakes hans (ih h₂)

theorem takes_awaited (hans : ans ≠ []) :
    Takes batchSender ⟨ans, (bytes', ans') :: script, false⟩ ans bytes' ⟨ans', script, false⟩ := by
  induction ans with
  | nil => exact absurd rfl hans
  | cons a more ih =>
    by_cases hmore : more = []
    · subst hmore
      have hreact : batchSender.react ⟨[a], (bytes', ans') :: script, false⟩ a = (⟨ans', script, false⟩, bytes') := by
        simp [batchSender, BatchSender.react]
      have hone := Takes.one (A := batchSender) (l := ⟨[a], (bytes', ans') :: script, false⟩) (b := a) rfl
      rwa [hreact] at hone
    · have hreact : batchSender.react ⟨a :: more, (bytes', ans') :: script, false⟩ a =
          (⟨more, (bytes', ans') :: script, false⟩, []) := by
        simp [batchSender, BatchSender.react, hmore]
      have hrest := Takes.cons (A := batchSender) (l := ⟨a :: more, (bytes', ans') :: script, false⟩) (b := a) rfl
        (by rw [hreact]; exact ih hmore)
      rwa [hreact] at hrest

theorem follows_leads (hrounds : Follows B r ((bytes, ans) :: script) r') :
    Leads batchSender B (.quiet ⟨ans, script ++ (bytes', ans') :: script', false⟩ bytes r [])
      (.quiet ⟨ans', script', false⟩ bytes' r' []) := by
  induction script generalizing bytes ans r with
  | nil =>
    cases hrounds with
    | cons htakes hans hnil =>
      cases hnil
      exact htakes.answer (takes_awaited hans)
  | cons round script ih =>
    obtain ⟨bytes₁, ans₁⟩ := round
    cases hrounds with
    | cons htakes hans hrest => exact (htakes.answer (takes_awaited hans)).trans (ih hrest)

theorem takes_stale_invitations (m : Nat) (more : List Byte) :
    Takes batchSender ⟨rymCodeAck :: more, script, false⟩ (List.replicate m rymCodeC) []
      ⟨rymCodeAck :: more, script, false⟩ := by
  induction m with
  | zero => exact .nil _
  | succ m ih =>
    exact Takes.cons (A := batchSender) (l := ⟨rymCodeAck :: more, script, false⟩) (b := rymCodeC) rfl ih

theorem batch_opening (more : List Byte) :
    Leads batchSender (receiver tmRecv answer)
      (opening n tmRecv junk ⟨[rymCodeC], (bytes, rymCodeAck :: more) :: script, false⟩)
      (.quiet ⟨rymCodeAck :: more, script, false⟩ bytes (.invited tmRecv junk (n - 1)) []) := by
  have hfirst : Takes batchSender ⟨[rymCodeC], (bytes, rymCodeAck :: more) :: script, false⟩ [rymCodeC] bytes
      ⟨rymCodeAck :: more, script, false⟩ := takes_awaited (by simp)
  have hall : ∀ m, Leads batchSender (receiver tmRecv answer)
      (.quiet ⟨[rymCodeC], (bytes, rymCodeAck :: more) :: script, false⟩ [] (.invited tmRecv junk (n - 1))
        ([rymCodeC] ++ List.replicate m rymCodeC))
      (.quiet ⟨rymCodeAck :: more, script, false⟩ bytes (.invited tmRecv junk (n - 1)) []) := by
    intro m
    have hleft : Leads batchSender (receiver tmRecv answer)
        (.quiet ⟨[rymCodeC], (bytes, rymCodeAck :: more) :: script, false⟩ [] (.invited tmRecv junk (n - 1))
          (([rymCodeC] ++ List.replicate m rymCodeC) ++ []))
        (.quiet ⟨rymCodeAck :: more, script, false⟩ ([] ++ (bytes ++ [])) (.invited tmRecv junk (n - 1)) []) :=
      (hfirst.append (takes_stale_invitations m more)).left
    rwa [List.append_nil, List.append_nil, List.nil_append] at hleft
  cases n with
  | zero => exact (flushRight ..).trans (hall 0)
  | succ m => exact hall m

/-! ## The receiver gives the answers -/

variable {stage : Stage} {calls : List Call} {front : List Byte} {rv : Recv}

theorem follows_data {index : Nat} {blocks : List Block} (hans : ∀ calls, answer calls = rymCodeAck)
    (hr : At .code stage calls front rv) (hfirst : stage = .established → BitVec.ofNat 8 index ≠ 0) :
    ∃ stage' rv', Follows (receiver tmRecv answer) rv (dataRounds index blocks) rv' ∧
      At .code stage' (calls ++ blocks.map fun b => .onData b.payload) (lastFront front blocks) rv' := by
  induction blocks generalizing index stage calls front rv with
  | nil =>
    refine ⟨stage, rv, .nil _, ?_⟩
    rwa [List.map_nil, List.append_nil]
  | cons b bs ih =>
    obtain ⟨r₁, htakes, hat⟩ := hr.takes_data (b := b) tmRecv hfirst (hans _)
    have hlater : Stage.transmitting = .established → BitVec.ofNat 8 (index + 1) ≠ 0 := fun hst => by cases hst
    obtain ⟨stage', r', hfollows, hat'⟩ := ih hat hlater
    refine ⟨stage', r', .cons htakes (by simp) hfollows, ?_⟩
    rw [List.append_assoc] at hat'
    exact hat'

theorem follows_blocks {blocks : List Block} (hans : ∀ calls, answer calls = rymCodeAck)
    (hr : At .code .established calls front rv) :
    ∃ rv', Follows (receiver tmRecv answer) rv
      (dataRounds 1 blocks ++ [([rymCodeEot], [rymCodeNak]), ([rymCodeEot], [rymCodeAck, rymCodeC])]) rv' ∧
      At .next .finishing (calls ++ (blocks.map (fun b => .onData b.payload) ++ [.onEnd (lastFront front blocks)]))
        (lastFront front blocks) rv' := by
  obtain ⟨stage', r₁, hfollows, hat⟩ := @follows_data tmRecv answer .established calls front rv 1 blocks hans hr
    (fun _ => by decide)
  obtain ⟨r₂, heot, hat⟩ := hat.takes_eot tmRecv answer
  obtain ⟨r₃, hend, hat⟩ := hat.takes_end tmRecv answer
  refine ⟨r₃, hfollows.append (.cons heot (by simp) (.cons hend (by simp) (.nil _))), ?_⟩
  rw [List.append_assoc] at hat
  exact hat

theorem follows_first {i : Nat} (f : BatchFile) (hans : ∀ calls, answer calls = rymCodeAck)
    (hr : At (.handshake i) stage calls front rv) :
    ∃ front' rv', Follows (receiver tmRecv answer) rv f.rounds rv' ∧
      At .next .finishing (calls ++ f.calls) front' rv' := by
  obtain ⟨r₁, hheader, hat⟩ := hr.takes_header (b := f.header) tmRecv (hans _)
  obtain ⟨r₂, hfollows, hat⟩ := @follows_blocks tmRecv answer _ _ r₁ f.blocks hans hat
  refine ⟨lastFront (f.header.payload.take 128) f.blocks, r₂, .cons hheader (by simp) hfollows, ?_⟩
  rw [List.append_assoc] at hat
  exact hat

theorem follows_next {f : BatchFile} (hans : ∀ calls, answer calls = rymCodeAck) (hform : f.header.form = .soh)
    (hr : At .next stage calls front rv) :
    ∃ front' rv', Follows (receiver tmRecv answer) rv f.rounds rv' ∧
      At .next .finishing (calls ++ f.calls) front' rv' := by
  obtain ⟨r₁, hheader, hat⟩ := hr.takes_next (b := f.header) tmRecv hform f.named (hans _)
  obtain ⟨r₂, hfollows, hat⟩ := @follows_blocks tmRecv answer _ _ r₁ f.blocks hans hat
  refine ⟨lastFront (f.header.payload.take 128) f.blocks, r₂, .cons hheader (by simp) hfollows, ?_⟩
  rw [List.append_assoc] at hat
  exact hat

theorem follows_files {files : List BatchFile} (hans : ∀ calls, answer calls = rymCodeAck)
    (hforms : ∀ f ∈ files, f.header.form = .soh) (hr : At .next .finishing calls front rv) :
    ∃ front' rv', Follows (receiver tmRecv answer) rv (files.flatMap BatchFile.rounds) rv' ∧
      At .next .finishing (calls ++ files.flatMap BatchFile.calls) front' rv' := by
  induction files generalizing calls front rv with
  | nil =>
    refine ⟨front, rv, .nil _, ?_⟩
    rwa [List.flatMap_nil, List.append_nil]
  | cons f files ih =>
    obtain ⟨front₁, r₁, hfile, hat⟩ := @follows_next tmRecv answer .finishing calls front rv f hans
      (hforms f List.mem_cons_self) hr
    obtain ⟨front₂, r₂, hfiles, hat⟩ := ih (fun g hg => hforms g (List.mem_cons_of_mem f hg)) hat
    refine ⟨front₂, r₂, hfile.append hfiles, ?_⟩
    rw [List.append_assoc] at hat
    exact hat

theorem files_leads (bytes' ans' : List Byte) (script' : List Round) {f : BatchFile} {files : List BatchFile}
    (hans : ∀ calls, answer calls = rymCodeAck)
    (hjunk : junk.length = rymStxPkgSz) (hrecv : n - 1 < tmRecv) (hforms : ∀ g ∈ files, g.header.form = .soh) :
    ∃ front rv, At .next .finishing ((f :: files).flatMap BatchFile.calls) front rv ∧
      Leads batchSender (receiver tmRecv answer)
        (opening n tmRecv junk ⟨[rymCodeC], (f :: files).flatMap BatchFile.rounds ++ (bytes', ans') :: script', false⟩)
        (.quiet ⟨ans', script', false⟩ bytes' rv []) := by
  obtain ⟨front₁, r₁, hfirst, hat⟩ := @follows_first tmRecv answer _ _ _ _ _ f hans (invited_at hjunk hrecv)
  obtain ⟨front₂, r₂, hfiles, hat⟩ := @follows_files tmRecv answer _ _ _ files hans hforms hat
  exact ⟨front₂, r₂, hat, (batch_opening _).trans (follows_leads (hfirst.append hfiles))⟩

/-! ## The end of a batch -/

/-- The bytes that `_rym_do_fin` reads of a block of the long form, and the others. -/
theorem stx_packet {b : Block} {index : Byte} (hform : b.form = .stx) : b.packet index =
    (Form.stx.code :: index :: ~~~index :: (b.payload.take 128 ++ [b.payload.getD 128 0, b.payload.getD 129 0])) ++
      (b.payload.drop 130 ++ [(crc16 b.payload >>> 8).setWidth 8, (crc16 b.payload).setWidth 8]) := by
  have hlen : b.payload.length = 1024 := by
    rw [b.length_eq, hform]
    rfl
  have hget : ∀ k (hk : k < b.payload.length), b.payload.getD k 0 = b.payload[k] := by
    intro k hk
    simp [List.getD, hk]
  have hsplit : b.payload =
      b.payload.take 128 ++ ([b.payload.getD 128 0, b.payload.getD 129 0] ++ b.payload.drop 130) := by
    have h₁ : b.payload.drop 128 = b.payload.getD 128 0 :: b.payload.drop 129 := by
      rw [List.drop_eq_getElem_cons (by omega), hget _ (by omega)]
    have h₂ : b.payload.drop 129 = b.payload.getD 129 0 :: b.payload.drop 130 := by
      rw [List.drop_eq_getElem_cons (by omega), hget _ (by omega)]
    calc b.payload = b.payload.take 128 ++ b.payload.drop 128 := (List.take_append_drop ..).symm
      _ = b.payload.take 128 ++ ([b.payload.getD 128 0, b.payload.getD 129 0] ++ b.payload.drop 130) := by
        rw [h₁, h₂]
        rfl
  have hbody : b.payload ++ [(crc16 b.payload >>> 8).setWidth 8, (crc16 b.payload).setWidth 8] =
      (b.payload.take 128 ++ [b.payload.getD 128 0, b.payload.getD 129 0]) ++
        (b.payload.drop 130 ++ [(crc16 b.payload >>> 8).setWidth 8, (crc16 b.payload).setWidth 8]) := by
    conv_lhs =>
      arg 1
      rw [hsplit]
    simp only [List.append_assoc]
  rw [Block.packet, packet, hform, hbody]
  rfl

/-- Of the empty header, the receiver reads 128 zeros and a checksum of 0 in both forms. -/
theorem terminator_packet (last : Form) : ∃ more, (terminator last).packet 0 =
    (last.code :: 0 :: ~~~0 :: (List.replicate 128 0 ++ [0, 0])) ++ more := by
  cases last with
  | soh =>
    refine ⟨[], ?_⟩
    rw [soh_packet rfl, List.append_nil]
    have hcrc : crc16 (terminator .soh).payload = 0 := crc16_zeros _
    rw [hcrc]
    rfl
  | stx =>
    refine ⟨(terminator .stx).payload.drop 130 ++
      [(crc16 (terminator .stx).payload >>> 8).setWidth 8, (crc16 (terminator .stx).payload).setWidth 8], ?_⟩
    rw [stx_packet rfl]
    have htake : (terminator .stx).payload.take 128 = List.replicate 128 0 := List.take_replicate ..
    rw [htake]
    rfl

theorem takes_final :
    Takes batchSender ⟨[rymCodeAck], [], false⟩ [rymCodeAck] [] ⟨[], [], false⟩ :=
  Takes.one (A := batchSender) (l := ⟨[rymCodeAck], [], false⟩) (b := rymCodeAck) rfl

theorem settles_short {f : BatchFile} {files : List BatchFile} (last : Form)
    (hans : ∀ calls, answer calls = rymCodeAck) (hjunk : junk.length = rymStxPkgSz) (hrecv : n - 1 < tmRecv)
    (hforms : ∀ g ∈ files, g.header.form = .soh) :
    Settles batchSender (receiver tmRecv answer) (opening n tmRecv junk (.start (f :: files) last))
      (Received (f :: files)) := by
  obtain ⟨front, rv, hat, hleads⟩ := files_leads (f := f) ((terminator last).packet 0) [rymCodeAck] [] hans hjunk hrecv
    hforms
  obtain ⟨more, hpacket⟩ := terminator_packet last
  obtain ⟨r', htakes, hat'⟩ := hat.takes_last tmRecv answer last 0 0 List.length_replicate rfl (crc16_zeros 128).symm
  have hlast : Leads batchSender (receiver tmRecv answer)
      (.quiet ⟨[rymCodeAck], [], false⟩ ((last.code :: 0 :: ~~~0 :: (List.replicate 128 0 ++ [0, 0])) ++ more) rv [])
      (.quiet ⟨[rymCodeAck], [], false⟩ more r' ([] ++ [rymCodeAck])) := htakes.right
  have hdone : Leads batchSender (receiver tmRecv answer)
      (.quiet ⟨[rymCodeAck], [], false⟩ more r' ([rymCodeAck] ++ []))
      (.quiet ⟨[], [], false⟩ (more ++ []) r' []) := takes_final.left
  rw [List.nil_append, ← hpacket] at hlast
  obtain ⟨k, hsteps⟩ := hleads.trans (hlast.trans hdone)
  exact (settles_iff hsteps (stuck_quiet (.inl rfl) (.inl hat'.halted))).mpr ⟨hat'.pc, hat'.calls, rfl⟩

/-- A batch with a header of the long form behind the first one, which has no checksum inside. -/
theorem long_end {f g : BatchFile} {files more : List BatchFile} (last : Form)
    (hans : ∀ calls, answer calls = rymCodeAck) (hjunk : junk.length = rymStxPkgSz) (hrecv : n - 1 < tmRecv)
    (hforms : ∀ g ∈ files, g.header.form = .soh) (hlong : g.header.form = .stx) (hsum : ¬ g.header.SumInside) :
    ∃ k t, Steps batchSender (receiver tmRecv answer) k
      (opening n tmRecv junk (.start (f :: (files ++ g :: more)) last)) t ∧
      t.Stuck batchSender (receiver tmRecv answer) ∧ t.right.pc = .returned (-rymErrCrc) := by
  obtain ⟨script, hstart⟩ : ∃ script, BatchSender.start (f :: (files ++ g :: more)) last =
      ⟨[rymCodeC], (f :: files).flatMap BatchFile.rounds ++ (g.header.packet 0, [rymCodeAck, rymCodeC]) :: script,
        false⟩ :=
    ⟨dataRounds 1 g.blocks ++ [([rymCodeEot], [rymCodeNak]), ([rymCodeEot], [rymCodeAck, rymCodeC])] ++
      (more.flatMap BatchFile.rounds ++ [((terminator last).packet 0, [rymCodeAck])]),
      by simp [BatchSender.start, BatchFile.rounds]⟩
  obtain ⟨front, rv, hat, hleads⟩ := files_leads (f := f) (g.header.packet 0) [rymCodeAck, rymCodeC] script hans hjunk
    hrecv hforms
  have hlen : (g.header.payload.take 128).length = 128 := by
    rw [List.length_take, g.header.length_eq, hlong]
    rfl
  obtain ⟨r', htakes, hat'⟩ := hat.takes_wrong tmRecv answer .stx _ _ hlen hsum
  rw [← hstart, stx_packet hlong] at hleads
  obtain ⟨k, hsteps⟩ := hleads.trans htakes.right
  exact ⟨k, _, hsteps, stuck_quiet (.inr rfl) (.inl hat'.halted), hat'.pc⟩

theorem first_long {files : List BatchFile} (hlong : ¬ ∀ g ∈ files, g.header.form = .soh) :
    ∃ done g more, files = done ++ g :: more ∧ (∀ x ∈ done, x.header.form = .soh) ∧ g.header.form = .stx := by
  induction files with
  | nil => exact absurd (fun g hg => absurd hg List.not_mem_nil) hlong
  | cons f files ih =>
    cases hform : f.header.form with
    | stx => exact ⟨[], f, files, rfl, fun x hx => absurd hx List.not_mem_nil, hform⟩
    | soh =>
      rw [List.forall_mem_cons, and_iff_right hform] at hlong
      obtain ⟨done, g, more, rfl, hdone, hg⟩ := ih hlong
      exact ⟨f :: done, g, more, rfl, List.forall_mem_cons.mpr ⟨hform, hdone⟩, hg⟩

/-- An empty file whose header has the given form. -/
def emptyFile (form : Form) : BatchFile where
  header := ⟨form, 0x61 :: List.replicate (form.size - 1) 0, by
    rw [List.length_cons, List.length_replicate, Nat.sub_add_cancel (size_pos form)]⟩
  blocks := []
  named := by
    show (0x61 : Byte) ≠ 0
    decide

end lemmas

end ThyristorController.Ymodem
