import Rtfsc.Linux.PipeRead

/-!
# What a read from a pipe takes

Before each round of the loop, what has been copied are the first bytes of what was found in the pipe,
and what is in the ring is the rest: `Reading`. A round keeps that or leaves the loop with it.
-/

namespace Rtfsc.Linux

open Rtfsc.Machine

variable {bytes : List UInt8} {packet : Bool} {ms : List (List UInt8 × Bool)} {n c total : Nat}

/-! ## Messages -/

/-- A buffer in front of messages; it adds none when it is empty. -/
def consMessage (bytes : List UInt8) (packet : Bool) (ms : List (List UInt8 × Bool)) :
    List (List UInt8 × Bool) :=
  if bytes = [] then ms else (bytes, packet) :: ms

theorem messages_cons (b : PipeBuffer) (bs : List PipeBuffer) :
    messages (b :: bs) = consMessage b.bytes b.packet (messages bs) := by
  unfold messages consMessage
  rw [List.map_cons, List.filter_cons]
  simp

theorem messages_append (bs bs' : List PipeBuffer) :
    messages (bs ++ bs') = messages bs ++ messages bs' := by
  rw [messages, List.map_append, List.filter_append]
  rfl

theorem consMessage_append (ms' : List (List UInt8 × Bool)) :
    consMessage bytes packet (ms ++ ms') = consMessage bytes packet ms ++ ms' := by
  unfold consMessage
  split <;> rfl

@[simp] theorem readMessages_zero (ms : List (List UInt8 × Bool)) : readMessages 0 ms = ([], ms) := by
  cases ms <;> simp [readMessages]

/-- A buffer that is no packet may be read in parts. -/
theorem readMessages_cut (hc : c ≤ bytes.length) :
    readMessages (c + n) (consMessage bytes false ms) =
      (bytes.take c ++ (readMessages n (consMessage (bytes.drop c) false ms)).1,
        (readMessages n (consMessage (bytes.drop c) false ms)).2) := by
  rcases Nat.eq_zero_or_pos c with rfl | hpos
  · simp
  have hbytes : bytes ≠ [] := by
    rintro rfl
    exact absurd hc (Nat.not_le.2 hpos)
  rw [consMessage, if_neg hbytes, readMessages, if_neg (by omega), if_neg Bool.false_ne_true]
  rcases Nat.lt_or_ge (c + n) bytes.length with hlt | hge
  · have hdrop : bytes.drop c ≠ [] := by
      rw [Ne, List.drop_eq_nil_iff]
      omega
    rw [if_pos hlt, consMessage, if_neg hdrop, readMessages]
    rcases Nat.eq_zero_or_pos n with rfl | hn
    · simp
    · rw [if_neg hn.ne', if_neg Bool.false_ne_true, if_pos (by rw [List.length_drop]; omega),
        List.take_add, List.drop_drop]
  · rw [if_neg (Nat.not_lt.2 hge)]
    rcases Nat.eq_or_lt_of_le hc with hall | hpart
    · have hdrop : bytes.drop c = [] := List.drop_eq_nil_of_le hall.ge
      rw [hdrop, consMessage, if_pos rfl, List.take_of_length_le hall.ge, hall, Nat.add_sub_cancel_left]
    · have hdrop : bytes.drop c ≠ [] := by
        rw [Ne, List.drop_eq_nil_iff]
        omega
      have hrest : c + n - bytes.length = n - (bytes.drop c).length := by
        rw [List.length_drop]
        omega
      rw [consMessage, if_neg hdrop, readMessages, if_neg (by omega), if_neg Bool.false_ne_true,
        if_neg (by rw [List.length_drop]; omega), hrest, ← List.append_assoc, List.take_append_drop]

/-- A packet is read as far as it goes, and is gone. -/
theorem readMessages_packet (hn : 0 < n) :
    readMessages (min bytes.length n) (consMessage bytes true ms) =
      (bytes.take (min bytes.length n), ms) := by
  unfold consMessage
  split
  · next h => simp [h]
  · next h =>
    have hlen := List.length_pos_of_ne_nil h
    rw [readMessages, if_neg (by omega), if_pos rfl]

/-! ## The ring -/

namespace Pipe

variable {p : Pipe} {b : PipeBuffer}

/-- The ring without its first buffer. -/
def rest (p : Pipe) : List PipeBuffer :=
  ringSlots p.buffers p.bufs ((p.curbuf + 1) &&& (p.buffers - 1)) (p.nrbufs - 1)

theorem ring_eq_cons (hn : p.nrbufs ≠ 0) : p.ring = p.bufs p.curbuf :: p.rest := by
  unfold ring rest
  cases hp : p.nrbufs with
  | zero => exact absurd hp hn
  | succ n => rfl

theorem ring_eq_nil (hn : p.nrbufs = 0) : p.ring = [] := by
  unfold ring
  rw [hn]
  rfl

theorem Sound.rest_update (h : p.Sound) (hn : p.nrbufs ≠ 0) (b : PipeBuffer) :
    ({ p with bufs := Function.update p.bufs p.curbuf b } : Pipe).rest = p.rest := by
  have hlt : p.nrbufs - 1 < p.buffers := by
    have hle := h.nrbufs
    omega
  exact ringSlots_update h.size h.curbuf hlt b

/-- The first buffer is changed. -/
theorem Sound.ring_update (h : p.Sound) (hn : p.nrbufs ≠ 0) (b : PipeBuffer) :
    ({ p with bufs := Function.update p.bufs p.curbuf b } : Pipe).ring = b :: p.rest := by
  have hcons := ring_eq_cons (p := { p with bufs := Function.update p.bufs p.curbuf b }) hn
  rw [h.rest_update hn] at hcons
  exact hcons.trans (congrArg (· :: p.rest) (Function.update_self ..))

theorem Sound.update (h : p.Sound) (hn : p.nrbufs ≠ 0) (hb : b.offset + b.len ≤ b.page.length) :
    ({ p with bufs := Function.update p.bufs p.curbuf b } : Pipe).Sound where
  size := h.size
  curbuf := h.curbuf
  nrbufs := h.nrbufs
  inside b' hb' := by
    rw [h.ring_update hn] at hb'
    rcases List.mem_cons.1 hb' with rfl | hb'
    · exact hb
    · exact h.inside b' (ring_eq_cons hn ▸ List.mem_cons_of_mem _ hb')

/-- The first buffer is taken out. -/
theorem Sound.advance (h : p.Sound) (hn : p.nrbufs ≠ 0) :
    ({ p with curbuf := (p.curbuf + 1) &&& (p.buffers - 1), nrbufs := p.nrbufs - 1 } : Pipe).Sound where
  size := h.size
  curbuf := by
    rw [and_size_sub_one h.size]
    exact Nat.mod_lt _ (Nat.zero_lt_of_lt h.curbuf)
  nrbufs := (Nat.sub_le ..).trans h.nrbufs
  inside b hb := h.inside b (ring_eq_cons hn ▸ List.mem_cons_of_mem _ hb)

end Pipe

/-! ## The loop -/

/-- The loop has read the first bytes of what it found, and the ring holds the rest. -/
structure PipeReader.Reading (total : Nat) (s : PipeReader) : Prop where
  sound : s.pipe.Sound
  ret : s.ret = s.copied.length
  total : s.copied.length + s.totalLen = total
  released : ∃ k ≤ s.found.length, s.released = (s.found.take k).map PipeBuffer.ref ∧
    s.pipe.ring.map PipeBuffer.ref = (s.found.drop k).map PipeBuffer.ref
  known : ∀ b ∈ s.pipe.ring, b ∈ s.found ∨ b.len ≠ 0
  content : ∀ n ms, readMessages (s.copied.length + n) (messages s.found ++ ms) =
    (s.copied ++ (readMessages n (messages s.pipe.ring ++ ms)).1,
      (readMessages n (messages s.pipe.ring ++ ms)).2)

/-- The loop has been left: the bytes that it reports are the first of what it found, and the ring holds
what is left of it. -/
structure PipeReader.Finished (total : Nat) (s : PipeReader) : Prop where
  sound : s.pipe.Sound
  le : s.ret.toNat ≤ total
  copied : s.ret.toNat ≤ s.copied.length
  released : ∃ k ≤ s.found.length, s.released = (s.found.take k).map PipeBuffer.ref ∧
    s.pipe.ring.map PipeBuffer.ref = (s.found.drop k).map PipeBuffer.ref
  known : ∀ b ∈ s.pipe.ring, b ∈ s.found ∨ b.len ≠ 0
  content : readMessages s.ret.toNat (messages s.found) =
    (s.copied.take s.ret.toNat, messages s.pipe.ring)

namespace PipeReader

variable {s t : PipeReader} {r : PipeRound} {nonblock : Bool} {rounds : List PipeRound}

/-- Nothing more is taken out of the pipe, and the bytes so far are reported, or an error when there are
none. What an incomplete copy has left with the reader is not reported. -/
theorem Reading.stop (h : s.Reading total) (hpipe : t.pipe = s.pipe) (hfound : t.found = s.found)
    (hreleased : t.released = s.released) {xs : List UInt8} (hcopied : t.copied = s.copied ++ xs)
    (hret : t.ret = s.ret ∨ s.ret = 0 ∧ t.ret < 0) : t.Finished total := by
  have hlen : t.ret.toNat = s.copied.length := by
    have hs := h.ret
    omega
  have htake : t.copied.take t.ret.toNat = s.copied := by
    rw [hcopied, hlen, List.take_left']
    rfl
  have hcontent := h.content 0 []
  rw [List.append_nil, List.append_nil, readMessages_zero, Nat.add_zero, List.append_nil] at hcontent
  refine ⟨hpipe ▸ h.sound, ?_, ?_, ?_, ?_, ?_⟩
  · have htotal := h.total
    omega
  · rw [hcopied, List.length_append]
    omega
  · rw [hpipe, hfound, hreleased]
    exact h.released
  · rw [hpipe, hfound]
    exact h.known
  · rw [htake, hlen, hfound, hpipe]
    exact hcontent

/-- `fail` reports the error only when there is nothing else to report. -/
theorem Reading.fail (h : s.Reading total) {error : Int} (herror : error < 0) (xs : List UInt8) :
    (({ s with copied := s.copied ++ xs } : PipeReader).fail error).Finished total := by
  refine h.stop rfl rfl rfl rfl ?_
  unfold PipeReader.fail
  dsimp only
  split
  · next h0 => exact .inr ⟨h0, herror⟩
  · exact .inl rfl

/-- The first buffer is released next. -/
theorem Reading.released_next (h : s.Reading total) {buf : PipeBuffer} {rest : List PipeBuffer}
    (hring : s.pipe.ring = buf :: rest) :
    ∃ k ≤ s.found.length, s.released ++ [buf.ref] = (s.found.take k).map PipeBuffer.ref ∧
      rest.map PipeBuffer.ref = (s.found.drop k).map PipeBuffer.ref := by
  obtain ⟨k, hk, hreleased, hrefs⟩ := h.released
  rw [hring, List.map_cons] at hrefs
  have hlt : k < s.found.length := by
    by_contra hge
    rw [List.drop_eq_nil_of_le (Nat.not_lt.1 hge)] at hrefs
    cases hrefs
  rw [List.drop_eq_getElem_cons hlt, List.map_cons, List.cons.injEq] at hrefs
  refine ⟨k + 1, hlt, ?_, hrefs.2⟩
  rw [hreleased, hrefs.1, List.take_succ_eq_append_getElem hlt, List.map_append]
  rfl

/-- Bytes have been taken from the first buffer, which is no packet: it is released if it is empty then. -/
theorem Reading.take (h : s.Reading total) {buf : PipeBuffer} {rest : List PipeBuffer} {c : Nat}
    (hring : s.pipe.ring = buf :: rest) (hpacket : buf.packet = false) (hlen : buf.bytes.length = buf.len)
    (hc : c ≤ buf.len) (hct : c ≤ s.totalLen) (hsound : t.pipe.Sound) (hret : t.ret = s.ret + c)
    (hcopied : t.copied = s.copied ++ buf.bytes.take c) (htotal : t.totalLen = s.totalLen - c)
    (hfound : t.found = s.found)
    (hbuf : c = buf.len ∧ t.pipe.ring = rest ∧ t.released = s.released ++ [buf.ref] ∨
      c < buf.len ∧ t.released = s.released ∧ ∃ b, t.pipe.ring = b :: rest ∧ b.ref = buf.ref ∧
        b.bytes = buf.bytes.drop c ∧ b.packet = false ∧ b.len ≠ 0) : t.Reading total := by
  have hcopiedLen : t.copied.length = s.copied.length + c := by
    rw [hcopied, List.length_append, List.length_take, hlen, Nat.min_eq_left hc]
  have hcontent : messages t.pipe.ring = consMessage (buf.bytes.drop c) false (messages rest) := by
    rcases hbuf with ⟨hall, hrest, -⟩ | ⟨-, -, b, hb, -, hbytes, hbp, -⟩
    · rw [hrest, consMessage, if_pos (List.drop_eq_nil_of_le (by omega))]
    · rw [hb, messages_cons, hbytes, hbp]
  refine ⟨hsound, ?_, ?_, ?_, ?_, fun n ms => ?_⟩
  · rw [hret, hcopiedLen, h.ret]
    push_cast
    rfl
  · rw [hcopiedLen, htotal, Nat.add_assoc, Nat.add_sub_cancel' hct, h.total]
  · rcases hbuf with ⟨-, hrest, hrel⟩ | ⟨-, hrel, b, hb, href, -⟩
    · rw [hfound, hrel, hrest]
      exact h.released_next hring
    · obtain ⟨k, hk, hreleased, hrefs⟩ := h.released
      refine ⟨k, hfound ▸ hk, by rw [hrel, hfound, hreleased], ?_⟩
      rw [hring, List.map_cons] at hrefs
      rw [hb, List.map_cons, href, hfound, hrefs]
  · have hknown : ∀ b ∈ rest, b ∈ t.found ∨ b.len ≠ 0 := fun b hb =>
      hfound ▸ h.known b (hring ▸ List.mem_cons_of_mem _ hb)
    rcases hbuf with ⟨-, hrest, -⟩ | ⟨-, -, b, hb, -, -, -, hne⟩
    · rw [hrest]
      exact hknown
    · rw [hb]
      intro b' hb'
      rcases List.mem_cons.1 hb' with rfl | hb'
      · exact .inr hne
      · exact hknown b' hb'
  · rw [hcopiedLen, hfound, Nat.add_assoc, h.content, hring, messages_cons, hpacket,
      ← consMessage_append, readMessages_cut (by omega), hcontent, ← consMessage_append, hcopied,
      List.append_assoc]

/-- A packet has been read, and released. -/
theorem Reading.takePacket (h : s.Reading total) {buf : PipeBuffer} {rest : List PipeBuffer}
    (hring : s.pipe.ring = buf :: rest) (hpacket : buf.packet = true) (hlen : buf.bytes.length = buf.len)
    (hmore : 0 < s.totalLen) (hsound : t.pipe.Sound)
    (hret : t.ret = s.ret + (min buf.len s.totalLen : Nat))
    (hcopied : t.copied = s.copied ++ buf.bytes.take (min buf.len s.totalLen))
    (hfound : t.found = s.found) (hrest : t.pipe.ring = rest)
    (hrel : t.released = s.released ++ [buf.ref]) : t.Finished total := by
  have hret' : t.ret.toNat = s.copied.length + min buf.len s.totalLen := by
    rw [hret, h.ret]
    exact Int.toNat_natCast (s.copied.length + min buf.len s.totalLen)
  have hcopiedLen : t.copied.length = s.copied.length + min buf.len s.totalLen := by
    rw [hcopied, List.length_append, List.length_take, hlen, Nat.min_eq_left (Nat.min_le_left ..)]
  refine ⟨hsound, ?_, (hret'.trans hcopiedLen.symm).le, ?_, ?_, ?_⟩
  · rw [hret', ← h.total]
    exact Nat.add_le_add_left (Nat.min_le_right ..) _
  · rw [hfound, hrel, hrest]
    exact h.released_next hring
  · rw [hrest, hfound]
    exact fun b hb => h.known b (hring ▸ List.mem_cons_of_mem _ hb)
  · have hcontent := h.content (min buf.len s.totalLen) []
    rw [List.append_nil, List.append_nil, hring, messages_cons, hpacket, ← hlen,
      readMessages_packet hmore, hlen, ← hcopied] at hcontent
    rw [hret', hfound, hcontent, hrest, ← hcopiedLen, List.take_length]

/-- What a round has done to the first buffer: the loop is left, or it goes on with the local `bufs` up to
date. -/
structure Kept (total : Nat) (o : Bool × Nat × PipeReader) : Prop where
  finished : o.1 = true → o.2.2.Finished total
  reading : o.1 = false → o.2.2.Reading total ∧ 0 < o.2.2.totalLen ∧ o.2.1 = o.2.2.pipe.nrbufs

theorem Finished.kept {bufs : Nat} (h : s.Finished total) : Kept total (true, bufs, s) :=
  ⟨fun _ => h, fun hf => absurd hf.symm Bool.false_ne_true⟩

theorem Reading.kept {o : Bool × Nat × PipeReader} (h : o.2.2.Reading total)
    (hleft : o.1 = decide (o.2.2.totalLen = 0)) (hbufs : o.2.1 = o.2.2.pipe.nrbufs) :
    Kept total o where
  finished _ := h.stop rfl rfl rfl (List.append_nil _).symm (.inl rfl)
  reading hmore := ⟨h, Nat.pos_of_ne_zero (of_decide_eq_false (hleft ▸ hmore)), hbufs⟩

/-- One round, as far as it is about the first buffer. -/
theorem Reading.consume (h : s.Reading total) (hmore : 0 < s.totalLen) (hn : s.pipe.nrbufs ≠ 0) :
    Kept total (s.consume r) := by
  have hring := Pipe.ring_eq_cons hn
  generalize hbuf : s.pipe.bufs s.pipe.curbuf = buf at hring
  have hinside : buf.offset + buf.len ≤ buf.page.length :=
    h.sound.inside buf (hring ▸ List.mem_cons_self)
  have hlen : buf.bytes.length = buf.len := by
    rw [PipeBuffer.bytes, List.length_take, List.length_drop]
    omega
  have hchars : (if s.totalLen < buf.len then s.totalLen else buf.len) = min buf.len s.totalLen := by
    split <;> omega
  have hle : min buf.len s.totalLen ≤ buf.len := Nat.min_le_left ..
  have hle' : min buf.len s.totalLen ≤ s.totalLen := Nat.min_le_right ..
  unfold PipeReader.consume
  simp only [hbuf, hchars]
  cases r.confirm with
  | some error =>
    have hfail := h.fail error.2 []
    rw [List.append_nil] at hfail
    exact hfail.kept
  | none =>
    dsimp only
    split
    · exact (h.fail (by decide) _).kept
    next hcopied =>
    have htake : (buf.page.drop buf.offset).take (min r.copies (min buf.len s.totalLen)) =
        buf.bytes.take (min buf.len s.totalLen) := by
      rw [PipeBuffer.bytes, List.take_take]
      congr 1
      omega
    rw [htake]
    cases hpacket : buf.packet with
    | true =>
      simp only [if_true, Nat.sub_self, decide_true]
      refine Finished.kept ?_
      refine h.takePacket hring hpacket hlen hmore ?_ rfl rfl rfl ?_ rfl
      · exact (h.sound.update hn (by dsimp only; omega)).advance hn
      · exact h.sound.rest_update hn _
    | false =>
      simp only [Bool.false_eq_true, if_false]
      split
      · next hempty =>
        refine Reading.kept ?_ rfl rfl
        refine h.take hring hpacket hlen hle hle' ?_ rfl rfl rfl rfl ?_
        · exact (h.sound.update hn (by dsimp only; omega)).advance hn
        · exact .inl ⟨by omega, h.sound.rest_update hn _, rfl⟩
      · next hleft =>
        refine Reading.kept ?_ rfl rfl
        refine h.take hring hpacket hlen hle hle' ?_ rfl rfl rfl rfl ?_
        · exact h.sound.update hn (by dsimp only; omega)
        · refine .inr ⟨by omega, rfl, _, h.sound.ring_update hn _, rfl, ?_, rfl, hleft⟩
          rw [PipeBuffer.bytes, PipeBuffer.bytes, List.drop_take, List.drop_drop]

/-- The pipe is empty, and what others make of it while the reader waits comes after what was found. -/
theorem Reading.wait (h : s.Reading total) (hn : s.pipe.nrbufs = 0) (p : Pipe) (hp : p.Sound) :
    ({ s with pipe := p, found := s.found ++ p.ring } : PipeReader).Reading total := by
  have hempty := Pipe.ring_eq_nil hn
  obtain ⟨k, hk, hreleased, hrefs⟩ := h.released
  have hall : k = s.found.length := by
    rw [hempty, List.map_nil, eq_comm, List.map_eq_nil_iff, List.drop_eq_nil_iff] at hrefs
    omega
  rw [hall, List.take_length] at hreleased
  refine ⟨hp, h.ret, h.total, ⟨s.found.length, ?_, ?_, ?_⟩, ?_, fun n ms => ?_⟩
  · exact List.length_append ▸ Nat.le_add_right ..
  · rw [List.take_left']
    · exact hreleased
    · rfl
  · rw [List.drop_left']
    rfl
  · exact fun b hb => .inl (List.mem_append_right _ hb)
  · have hcontent := h.content n (messages p.ring ++ ms)
    rw [hempty, ← List.append_assoc, ← messages_append] at hcontent
    exact hcontent

/-- What is decided while the pipe is empty. -/
theorem Reading.await (h : s.Reading total) (hmore : 0 < s.totalLen) (hn : s.pipe.nrbufs = 0) :
    ((s.await nonblock r).1 = true → (s.await nonblock r).2.Finished total) ∧
      ((s.await nonblock r).1 = false → (s.await nonblock r).2.Reading total ∧
        0 < (s.await nonblock r).2.totalLen) := by
  have hleft : s.Finished total := h.stop rfl rfl rfl (List.append_nil _).symm (.inl rfl)
  unfold PipeReader.await
  split
  · exact ⟨fun _ => hleft, fun hf => absurd hf.symm Bool.false_ne_true⟩
  split
  · exact ⟨fun _ => hleft, fun hf => absurd hf.symm Bool.false_ne_true⟩
  next hret =>
  have hnegative : pipeAgain < 0 := by decide
  split
  · next hagain =>
    have hzero : s.ret = 0 := by
      by_contra hne
      exact hret ⟨hagain.1, hne⟩
    exact ⟨fun _ => h.stop rfl rfl rfl (List.append_nil _).symm (.inr ⟨hzero, hnegative⟩),
      fun hf => absurd hf.symm Bool.false_ne_true⟩
  split
  · have hfail := h.fail (show pipeRestart < 0 by decide) []
    rw [List.append_nil] at hfail
    exact ⟨fun _ => hfail, fun hf => absurd hf.symm Bool.false_ne_true⟩
  · exact ⟨fun hf => absurd hf Bool.false_ne_true, fun _ => ⟨h.wait hn _ r.waited.2, hmore⟩⟩

/-- One round of the loop. -/
theorem Reading.round (h : s.Reading total) (r : PipeRound) (nonblock : Bool)
    (hmore : 0 < s.totalLen) :
    ((s.round nonblock r).1 = true → (s.round nonblock r).2.Finished total) ∧
      ((s.round nonblock r).1 = false → (s.round nonblock r).2.Reading total ∧
        0 < (s.round nonblock r).2.totalLen) := by
  have hkept : (if s.pipe.nrbufs = 0 then (false, 0, s) else s.consume r).1 = true →
      (if s.pipe.nrbufs = 0 then (false, 0, s) else s.consume r).2.2.Finished total := by
    split
    · exact fun hf => absurd hf Bool.false_ne_true
    · next hn => exact (h.consume hmore hn).finished
  have hreading : (if s.pipe.nrbufs = 0 then (false, 0, s) else s.consume r).1 = false →
      (if s.pipe.nrbufs = 0 then (false, 0, s) else s.consume r).2.2.Reading total ∧
      0 < (if s.pipe.nrbufs = 0 then (false, 0, s) else s.consume r).2.2.totalLen ∧
      (if s.pipe.nrbufs = 0 then (false, 0, s) else s.consume r).2.1 =
        (if s.pipe.nrbufs = 0 then (false, 0, s) else s.consume r).2.2.pipe.nrbufs := by
    split
    · next hn => exact fun _ => ⟨h, hmore, hn.symm⟩
    · next hn => exact (h.consume hmore hn).reading
  unfold PipeReader.round
  generalize (if s.pipe.nrbufs = 0 then (false, 0, s) else s.consume r) = o at hkept hreading
  obtain ⟨left, bufs, t⟩ := o
  dsimp only at hkept hreading ⊢
  cases left with
  | true => exact ⟨fun _ => hkept rfl, fun hf => absurd hf.symm Bool.false_ne_true⟩
  | false =>
    obtain ⟨ht, hpos, hbufs⟩ := hreading rfl
    rw [if_neg Bool.false_ne_true]
    split
    · exact ⟨fun hf => absurd hf Bool.false_ne_true, fun _ => ⟨ht, hpos⟩⟩
    · next hzero => exact ht.await hpos (hbufs.symm.trans (not_not.1 hzero))

theorem Reading.loop (h : s.Reading total) (hmore : 0 < s.totalLen)
    (ht : s.loop nonblock rounds = some t) : t.Finished total := by
  induction rounds generalizing s with
  | nil => cases ht
  | cons r rs ih =>
    obtain ⟨hfinished, hreading⟩ := h.round r nonblock hmore
    unfold PipeReader.loop at ht
    generalize s.round nonblock r = o at ht hfinished hreading
    obtain ⟨left, u⟩ := o
    dsimp only at ht hfinished hreading
    cases left with
    | true =>
      cases ht
      exact hfinished rfl
    | false => exact ih (hreading rfl).1 (hreading rfl).2 ht

end PipeReader

variable {pipe : Pipe} {totalLen : Nat} {nonblock : Bool} {rounds : List PipeRound} {t : PipeReader}

theorem pipeRead_finished (hpipe : pipe.Sound) (h : pipeRead nonblock pipe totalLen rounds = some t) :
    t.Finished totalLen := by
  have hstart : (⟨pipe, totalLen, 0, false, [], [], pipe.ring⟩ : PipeReader).Reading totalLen := by
    refine ⟨hpipe, rfl, Nat.zero_add _, ⟨0, Nat.zero_le _, rfl, rfl⟩, fun b hb => .inl hb,
      fun n ms => ?_⟩
    rw [List.length_nil, Nat.zero_add]
    rfl
  unfold pipeRead at h
  dsimp only at h
  split at h
  · cases h
    exact hstart.stop rfl rfl rfl (List.append_nil _).symm (.inl rfl)
  · next hmore => exact hstart.loop (Nat.pos_of_ne_zero hmore) h

/-- Whatever is in the pipe at the beginning and whenever the reader has waited, and wherever confirming
or copying fails: when `pipe_read` returns, the bytes that it reports are the first of the stream and of
what it has copied; the ring holds the rest, without what was left of a packet in which the read ended;
the buffers before the ring have been released, each once, and those of the ring have not; `nrbufs` is
the number of buffers in the ring, of which only those are empty that were found so. When it returns an
error, nothing has been read. -/
theorem pipeRead_spec (nonblock : Bool) (pipe : { p : Pipe // p.Sound }) (totalLen : Nat)
    (rounds : List PipeRound) (t : PipeReader)
    (h : pipeRead nonblock pipe.1 totalLen rounds = some t) :
    (t.ret.toNat ≤ totalLen ∧ (t.copied.take t.ret.toNat).length = t.ret.toNat) ∧
    readMessages t.ret.toNat (messages t.found) =
      (t.copied.take t.ret.toNat, messages t.pipe.ring) ∧
    (∃ k ≤ t.found.length, t.released = (t.found.take k).map PipeBuffer.ref ∧
      t.pipe.ring.map PipeBuffer.ref = (t.found.drop k).map PipeBuffer.ref ∧
      t.pipe.nrbufs = t.found.length - k) ∧
    (t.pipe.Sound ∧ t.pipe.nrbufs = t.pipe.ring.length ∧
      ∀ b ∈ t.pipe.ring, b.len = 0 → b ∈ t.found) ∧
    (t.ret < 0 → messages t.pipe.ring = messages t.found) := by
  have hfin := pipeRead_finished pipe.2 h
  obtain ⟨k, hk, hreleased, hrefs⟩ := hfin.released
  have hcount : t.pipe.nrbufs = t.pipe.ring.length := length_ringSlots.symm
  refine ⟨⟨hfin.le, List.length_take_of_le hfin.copied⟩, hfin.content, ⟨k, hk, hreleased, hrefs, ?_⟩,
    ⟨hfin.sound, hcount, fun b hb hlen => (hfin.known b hb).resolve_right (not_not.2 hlen)⟩,
    fun hneg => ?_⟩
  · have hlen := congrArg List.length hrefs
    rw [List.length_map, List.length_map, List.length_drop] at hlen
    rw [hcount, hlen]
  · have hcontent := hfin.content
    rw [Int.toNat_of_nonpos (Int.le_of_lt hneg), readMessages_zero] at hcontent
    exact (congrArg Prod.snd hcontent).symm

/-- A pipe of four slots without writers, with three buffers that go round the end of the array; the one
in the middle is of the given length and kind. -/
def threeBuffers (len : Nat) (packet : Bool) : Pipe where
  bufs i := if i = 3 then ⟨0, [1, 2, 3, 4, 5], 0, 5, false⟩
    else if i = 0 then ⟨1, [6, 7], 0, len, packet⟩ else ⟨2, [8, 9], 1, 1, false⟩
  buffers := 4
  curbuf := 3
  nrbufs := 3
  writers := 0
  waitingWriters := 0

theorem threeBuffers_sound {len : Nat} (hlen : len ≤ 2) (packet : Bool) :
    (threeBuffers len packet).Sound where
  size := ⟨2, rfl⟩
  curbuf := (by decide : 3 < 4)
  nrbufs := (by decide : 3 ≤ 4)
  inside b hb := by
    have hring : (threeBuffers len packet).ring = [⟨0, [1, 2, 3, 4, 5], 0, 5, false⟩,
        ⟨1, [6, 7], 0, len, packet⟩, ⟨2, [8, 9], 1, 1, false⟩] := by
      simp [Pipe.ring, threeBuffers, ringSlots]
    rw [hring] at hb
    simp only [List.mem_cons, List.not_mem_nil, or_false] at hb
    rcases hb with rfl | rfl | rfl
    · exact le_refl 5
    · exact (Nat.zero_add len).trans_le hlen
    · exact le_refl 2

/-- A round in which nothing fails. -/
def wellRound : PipeRound :=
  ⟨none, 4096, false, ⟨threeBuffers 0 false, threeBuffers_sound (by decide) false⟩⟩

/-- Six bytes are read, the last from a packet, whose other byte is lost. -/
theorem pipeRead_spec_packet :
    ∃ t : PipeReader, t.ret = 6 ∧
      pipeRead false (threeBuffers 2 true) 6 [wellRound, wellRound] = some t ∧
      t.copied.take 6 = [1, 2, 3, 4, 5, 6] ∧ messages t.pipe.ring = [([9], false)] := by
  obtain ⟨t, ht, hret, hfound⟩ : ∃ t : PipeReader,
      pipeRead false (threeBuffers 2 true) 6 [wellRound, wellRound] = some t ∧ t.ret = 6 ∧
        t.found = (threeBuffers 2 true).ring := ⟨_, rfl, rfl, rfl⟩
  have hcontent := (pipeRead_spec false ⟨threeBuffers 2 true, threeBuffers_sound (by decide) true⟩ 6 _ t
    ht).2.1
  rw [hret, hfound] at hcontent
  have hread : readMessages 6 (messages (threeBuffers 2 true).ring) =
      ([1, 2, 3, 4, 5, 6], [([9], false)]) := by decide
  exact ⟨t, hret, ht, congrArg Prod.fst (hcontent.symm.trans hread),
    congrArg Prod.snd (hcontent.symm.trans hread)⟩

/-- An empty buffer that the read does not come to stays in the ring, and is counted. -/
theorem pipeRead_empty_counted :
    ¬∀ (pipe : { p : Pipe // p.Sound }) (totalLen : Nat) (rounds : List PipeRound) (t : PipeReader),
      pipeRead false pipe.1 totalLen rounds = some t → 0 < t.ret →
        t.pipe.nrbufs = (messages t.pipe.ring).length := by
  intro h
  have hcount := h ⟨threeBuffers 0 false, threeBuffers_sound (by decide) false⟩ 5 [wellRound] _ rfl
    (by decide)
  revert hcount
  decide

end Rtfsc.Linux
