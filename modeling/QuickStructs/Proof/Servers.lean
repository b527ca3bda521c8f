import QuickStructs.Io.Tcp
import QuickStructs.Proof.Sockets

/-!
# Who listens

Servers and clients do nothing to sockets that handles cannot do, so descriptors are safe with
them. A connection that listens was made to do so by the server that held it then, and it goes
from one holder to another only when a server is moved, together with the address and the flag.
What the holder still has of the address depends on the moves: one of an object to itself may leave
nothing of the text, but it keeps the port.
-/

namespace QuickStructs.TcpServer

open Lib SocketRAII

variable {H : Type}

section Connections

variable {w : World H} {h o : H} {c : Nat}

/-- The handle holds the connection `c`. -/
def owns (w : World H) (h : H) (c : Nat) : Prop :=
  ∃ fd, w.holds h fd ∧ w.os.table fd = some c

theorem owns_of_handle {x : Socket} (hx : w.handles h = some x) :
    owns w h c ↔ 0 ≤ x.fd ∧ w.os.table x.fd = some c := by
  constructor
  · rintro ⟨fd, ⟨hpos, hh⟩, hc⟩
    rw [hx] at hh
    obtain rfl : x = ⟨fd⟩ := Option.some.inj hh
    exact ⟨hpos, hc⟩
  · rintro ⟨hpos, hc⟩
    exact ⟨x.fd, ⟨hpos, hx⟩, hc⟩

theorem not_owns_none (hx : w.handles h = none) : ¬ owns w h c := by
  rintro ⟨fd, ⟨_, hh⟩, _⟩
  rw [hx] at hh
  exact absurd hh (by simp)

/-- A connection has one holder. -/
theorem owns_unique (hw : Inv w) (hh : owns w h c) (ho : owns w o c) : h = o := by
  obtain ⟨fd, hfd, hc⟩ := hh
  obtain ⟨fd', hfd', hc'⟩ := ho
  obtain rfl := hw.sound.apart fd fd' c hc hc'
  exact hw.apart h o fd hfd hfd'

theorem owns_lt (hw : Inv w) (hh : owns w h c) : c < w.os.next := by
  obtain ⟨fd, _, hc⟩ := hh
  exact (hw.sound.live fd c hc).1

end Connections

/-! ## What an operation does -/

section Receive

variable {w : World H} {fd fd' : Int} {c : Nat}

theorem receive_handles (w : World H) (fd : Int) : (w.receive fd).handles = w.handles := by
  unfold World.receive
  split <;> rfl

theorem receive_negative (w : World H) (hneg : fd < 0) : w.receive fd = w := by
  unfold World.receive
  rw [if_neg (by omega)]

theorem receive_next (w : World H) (fd : Int) : w.os.next ≤ (w.receive fd).os.next := by
  unfold World.receive
  split
  · exact Nat.le_succ _
  · exact Nat.le_refl _

/-- What is open when a descriptor was received was open before, or is new. -/
theorem receive_table (hfree : w.mayReceive fd) (hc : (w.receive fd).os.table fd' = some c) :
    w.os.table fd' = some c ∨ fd' = fd ∧ w.os.table fd = none ∧ c = w.os.next := by
  unfold World.receive at hc
  split at hc
  · rename_i hpos
    by_cases hfd : fd' = fd
    · subst hfd
      exact .inr ⟨rfl, hfree hpos,
        (Option.some.inj ((Descriptors.issue_self _ _).symm.trans hc)).symm⟩
    · exact .inl ((Descriptors.issue_of_ne hfd).symm.trans hc)
  · exact .inl hc

theorem close_table {d : Descriptors} (hc : (d.close fd).table fd' = some c) :
    d.table fd' = some c := by
  cases hfd : d.table fd with
  | none =>
      unfold Descriptors.close at hc
      rw [hfd] at hc
      exact hc
  | some e =>
      by_cases hne : fd' = fd
      · rw [hne, Descriptors.close_self hfd] at hc
        exact absurd hc (by simp)
      · exact (Descriptors.close_of_ne hfd hne).symm.trans hc

theorem closeHeld_table {x : Socket} (hc : (w.closeHeld x).os.table fd' = some c) :
    w.os.table fd' = some c := by
  unfold World.closeHeld at hc
  split at hc
  · exact close_table hc
  · exact hc

theorem closeHeld_next (w : World H) (x : Socket) : (w.closeHeld x).os.next = w.os.next := by
  unfold World.closeHeld Descriptors.close
  split
  · split <;> rfl
  · rfl

end Receive

variable [DecidableEq H] {w w' : World H} {h o : H} {op : SocketRAII.Op H} {fd : Int} {c : Nat}

/-- The operations come to these. -/
inductive SocketStep (w : World H) (op : SocketRAII.Op H) : World H → Prop where
  | keep : SocketStep w op w
  | make (h : H) (fd : Int) (hop : handlesOf op = [h]) (hx : w.handles h = none)
      (hfree : w.mayReceive fd) : SocketStep w op ((w.receive fd).set h (some ⟨fd⟩))
  | assign (h : H) (fd : Int) (x : Socket) (hop : handlesOf op = [h]) (hx : w.handles h = some x)
      (hfree : w.mayReceive fd) : SocketStep w op ((w.receive fd).assign h x fd)
  | moveCtor (h o : H) (y : Socket) (hop : handlesOf op = [h, o]) (hx : w.handles h = none)
      (hy : w.handles o = some y) : SocketStep w op (w.moveCtor h o y)
  | moveAssign (h o : H) (x y : Socket) (hop : handlesOf op = [h, o]) (hne : h ≠ o)
      (hx : w.handles h = some x) (hy : w.handles o = some y) :
      SocketStep w op (((w.closeHeld x).set h (some ⟨y.fd⟩)).set o (some ⟨-1⟩))
  | dtor (h : H) (x : Socket) (hop : handlesOf op = [h]) (hx : w.handles h = some x) :
      SocketStep w op (w.dtor h x)

theorem socket_cases (hs : SocketRAII.step w op = some w') : SocketStep w op w' := by
  cases op with
  | defaultCtor h =>
      rw [SocketRAII.step] at hs
      split at hs
      · rename_i hx
        injection hs with hs
        rw [← hs]
        exact .make h (-1) rfl hx fun h0 => absurd h0 (by decide)
      · exact absurd hs (by simp)
  | ctor h fd =>
      rw [SocketRAII.step] at hs
      split at hs
      · rename_i hx
        obtain ⟨hfree, rfl⟩ := Transition.of_guard hs
        exact .make h fd rfl hx hfree
      · exact absurd hs (by simp)
  | moveCtor h o =>
      rw [SocketRAII.step] at hs
      split at hs
      · rename_i y hx hy
        injection hs with hs
        rw [← hs]
        exact .moveCtor h o y rfl hx hy
      · exact absurd hs (by simp)
  | moveAssign h o =>
      rw [SocketRAII.step] at hs
      split at hs
      · rename_i x y hx hy
        injection hs with hs
        rw [← hs]
        unfold World.moveAssign
        split
        · rename_i hne
          exact .moveAssign h o x y rfl hne hx hy
        · exact .keep
      · exact absurd hs (by simp)
  | assign h fd | reset h fd =>
      rw [SocketRAII.step] at hs
      split at hs
      · rename_i x hx
        obtain ⟨hfree, rfl⟩ := Transition.of_guard hs
        exact .assign h fd x rfl hx hfree
      · exact absurd hs (by simp)
  | createSocket h fd =>
      rw [SocketRAII.step] at hs
      split at hs
      · rename_i x hx
        obtain ⟨hfree, rfl⟩ := Transition.of_guard hs
        unfold World.createSocket
        split
        · rename_i hneg
          rw [receive_negative w hneg]
          exact .keep
        · exact .assign h fd x rfl hx hfree
      · exact absurd hs (by simp)
  | dtor h =>
      obtain ⟨x, hx, rfl⟩ := Option.map_eq_some_iff.mp hs
      exact .dtor h x rfl hx

/-- Other handles are left alone. -/
theorem handles_frame (hs : SocketRAII.step w op = some w') (ho : o ∉ handlesOf op) :
    w'.handles o = w.handles o := by
  cases socket_cases hs with
  | keep => rfl
  | make h fd hop hx hfree =>
      rw [hop, List.mem_singleton] at ho
      show Function.update (w.receive fd).handles h _ o = _
      rw [Function.update_of_ne ho, receive_handles]
  | assign h fd x hop hx hfree =>
      rw [hop, List.mem_singleton] at ho
      show Function.update ((w.receive fd).closeHeld x).handles h _ o = _
      rw [Function.update_of_ne ho, handles_closeHeld, receive_handles]
  | moveCtor h p y hop hx hy =>
      rw [hop, List.mem_pair, not_or] at ho
      show Function.update (Function.update w.handles h _) p _ o = _
      rw [Function.update_of_ne ho.2, Function.update_of_ne ho.1]
  | moveAssign h p x y hop hne hx hy =>
      rw [hop, List.mem_pair, not_or] at ho
      show Function.update (Function.update (w.closeHeld x).handles h _) p _ o = _
      rw [Function.update_of_ne ho.2, Function.update_of_ne ho.1, handles_closeHeld]
  | dtor h x hop hx =>
      rw [hop, List.mem_singleton] at ho
      show Function.update (w.closeHeld x).handles h _ o = _
      rw [Function.update_of_ne ho, handles_closeHeld]

/-- What is open was open before, or is new under a number that was not open. -/
theorem table_step (hs : SocketRAII.step w op = some w') {fd : Int}
    (hc : w'.os.table fd = some c) :
    w.os.table fd = some c ∨ w.os.table fd = none ∧ c = w.os.next := by
  have hnew : ∀ {fd'}, w.mayReceive fd' → (w.receive fd').os.table fd = some c →
      w.os.table fd = some c ∨ w.os.table fd = none ∧ c = w.os.next := by
    intro fd' hfree hc
    rcases receive_table hfree hc with hold | ⟨rfl, hnone, hnext⟩
    · exact .inl hold
    · exact .inr ⟨hnone, hnext⟩
  cases socket_cases hs with
  | keep => exact .inl hc
  | make h fd' hop hx hfree => exact hnew hfree hc
  | assign h fd' x hop hx hfree => exact hnew hfree (closeHeld_table (x := x) hc)
  | moveCtor h p y hop hx hy => exact .inl hc
  | moveAssign h p x y hop hne hx hy => exact .inl (closeHeld_table (x := x) hc)
  | dtor h x hop hx => exact .inl (closeHeld_table (x := x) hc)

theorem next_step (hs : SocketRAII.step w op = some w') : w.os.next ≤ w'.os.next := by
  cases socket_cases hs with
  | keep => exact Nat.le_refl _
  | make h fd hop hx hfree => exact receive_next w fd
  | assign h fd x hop hx hfree =>
      show _ ≤ ((w.receive fd).closeHeld x).os.next
      rw [closeHeld_next]
      exact receive_next w fd
  | moveCtor h p y hop hx hy => exact Nat.le_refl _
  | moveAssign h p x y hop hne hx hy => exact Nat.le_of_eq (closeHeld_next w x).symm
  | dtor h x hop hx => exact Nat.le_of_eq (closeHeld_next w x).symm

/-- A handle that is left alone has what it had. -/
theorem owns_frame (hw : Inv w) (hs : SocketRAII.step w op = some w') (ho : o ∉ handlesOf op) :
    owns w' o c ↔ owns w o c := by
  have hsame : ∀ {fd c}, w.holds o fd → w'.os.table fd = some c → w.os.table fd = some c := by
    intro fd c hh hc
    rcases table_step hs hc with hold | ⟨hnone, _⟩
    · exact hold
    · obtain ⟨e, he⟩ := hw.live o fd hh
      rw [hnone] at he
      exact absurd he (by simp)
  constructor
  · rintro ⟨fd, ⟨hpos, hh⟩, hc⟩
    rw [handles_frame hs ho] at hh
    exact ⟨fd, ⟨hpos, hh⟩, hsame ⟨hpos, hh⟩ hc⟩
  · rintro ⟨fd, ⟨hpos, hh⟩, hc⟩
    have hh' : w'.holds o fd := ⟨hpos, (handles_frame hs ho).trans hh⟩
    obtain ⟨e, he⟩ := (inv_step hw hs).live o fd hh'
    have hce : w.os.table fd = some e := hsame ⟨hpos, hh⟩ he
    rw [hc] at hce
    rw [← Option.some.inj hce] at he
    exact ⟨fd, hh', he⟩

/-- A connection that there was before had a holder, and changes hands only within the operation. -/
theorem owns_old (hw : Inv w) (hs : SocketRAII.step w op = some w') (hold : c < w.os.next)
    (hc : owns w' h c) : ∃ o, owns w o c ∧ (o = h ∨ o ∈ handlesOf op) := by
  have hw' := inv_step hw hs
  have hc' := hc
  obtain ⟨fd, _, htable⟩ := hc'
  rcases table_step hs htable with hwas | ⟨_, hnext⟩
  · obtain ⟨o, hpos, ho⟩ := hw.held fd c hwas
    refine ⟨o, ⟨fd, ⟨hpos, ho⟩, hwas⟩, ?_⟩
    by_cases hin : o ∈ handlesOf op
    · exact .inr hin
    · refine .inl (owns_unique hw' ⟨fd, ⟨hpos, ?_⟩, htable⟩ hc)
      rw [handles_frame hs hin]
      exact ho
  · omega

theorem create_failed (hs : SocketRAII.step w (.createSocket h fd) = some w') (hneg : fd < 0) :
    w' = w := by
  rw [SocketRAII.step] at hs
  split at hs
  · obtain ⟨_, rfl⟩ := Transition.of_guard hs
    unfold World.createSocket
    rw [if_pos hneg, receive_negative w hneg]
  · exact absurd hs (by simp)

theorem create_handle (hs : SocketRAII.step w (.createSocket h fd) = some w') (hpos : 0 ≤ fd) :
    w.os.table fd = none ∧ w'.handles h = some ⟨fd⟩ := by
  rw [SocketRAII.step] at hs
  split at hs
  · rename_i x hx
    obtain ⟨hfree, rfl⟩ := Transition.of_guard hs
    refine ⟨hfree hpos, ?_⟩
    unfold World.createSocket
    rw [if_neg (by omega)]
    exact Function.update_self ..
  · exact absurd hs (by simp)

/-- The socket that was created is the one that the handle has. -/
theorem owns_created (hw : Inv w) (hs : SocketRAII.step w (.createSocket h fd) = some w')
    (hpos : 0 ≤ fd) : w'.os.table fd = some w.os.next ∧ ∀ c, owns w' h c ↔ c = w.os.next := by
  obtain ⟨hnone, hh⟩ := create_handle hs hpos
  obtain ⟨e, he⟩ := (inv_step hw hs).live h fd ⟨hpos, hh⟩
  have hnext : e = w.os.next := by
    rcases table_step hs he with hold | ⟨_, hnext⟩
    · rw [hnone] at hold
      exact absurd hold (by simp)
    · exact hnext
  rw [hnext] at he
  refine ⟨he, fun c => ?_⟩
  rw [owns_of_handle hh, he, Option.some.injEq]
  exact ⟨fun hc => hc.2.symm, fun hc => ⟨hpos, hc.symm⟩⟩

/-! ## The invariant -/

section Invariant

variable {H : Type}

/-- What a server that made a connection listen has of the address it asked for is `Has`. -/
structure NetInv (Has : Tcp → UInt32 × UInt16 → Prop) (n : Net H) : Prop where
  inv : Inv n.sockets
  handle : ∀ h, n.tcps h ≠ none → n.sockets.handles h ≠ none
  fresh : ∀ c, n.listening c ≠ none → c < n.sockets.os.next
  /-- The holder of a connection that listens is a server that says so. -/
  owner : ∀ h c a, owns n.sockets h c → n.listening c = some a →
    ∃ x, n.tcps h = some x ∧ x.running = true ∧ Has x a

variable {Has : Tcp → UInt32 × UInt16 → Prop}

theorem net_init : NetInv Has ({} : Net H) where
  inv := inv_init
  handle := fun _ h => absurd rfl h
  fresh := fun _ h => absurd rfl h
  owner := fun _ _ _ _ h => absurd h (by simp)

/-- A server that runs makes its connection listen. -/
theorem NetInv.listen {n : Net H} {h : H} {c : Nat} {x : Tcp} {a : UInt32 × UInt16}
    (hn : NetInv Has n) (hc : owns n.sockets h c) (hx : n.tcps h = some x)
    (hrunning : x.running = true) (hhas : Has x a) :
    NetInv Has { n with listening := Function.update n.listening c (some a) } where
  inv := hn.inv
  handle := hn.handle
  fresh := by
    intro c' hc'
    by_cases heq : c' = c
    · rw [heq]
      exact owns_lt hn.inv hc
    · change Function.update n.listening c _ c' ≠ none at hc'
      rw [Function.update_of_ne heq] at hc'
      exact hn.fresh c' hc'
  owner := by
    intro o c' b ho hb
    change Function.update n.listening c _ c' = some b at hb
    by_cases heq : c' = c
    · subst heq
      rw [Function.update_self, Option.some.injEq] at hb
      obtain rfl := owns_unique hn.inv ho hc
      exact ⟨x, hx, hrunning, hb ▸ hhas⟩
    · rw [Function.update_of_ne heq] at hb
      exact hn.owner o c' b ho hb

/-- An open connection that listens has one holder. -/
theorem NetInv.listener {n : Net H} {fd : Int} {c : Nat} {a : UInt32 × UInt16}
    (hn : NetInv Has n) (hc : n.sockets.os.table fd = some c) (ha : n.listening c = some a) :
    ∃! h, n.sockets.holds h fd ∧ ∃ x, n.tcps h = some x ∧ x.running = true ∧ Has x a := by
  obtain ⟨o, ho⟩ := hn.inv.held fd c hc
  exact ⟨o, ⟨ho, hn.owner o c a ⟨fd, ho, hc⟩ ha⟩, fun p hp => hn.inv.apart p o fd hp.1 ho⟩

/-- The handle of a connection that listens. -/
theorem listensAt_iff {n : Net H} {h : H} (hw : Inv n.sockets) {a : UInt32 × UInt16} :
    n.listensAt h = some a ↔ ∃ c, owns n.sockets h c ∧ n.listening c = some a := by
  unfold Net.listensAt
  rw [Option.bind_eq_some_iff]
  constructor
  · rintro ⟨x, hx, hc⟩
    obtain ⟨c, hc, ha⟩ := Option.bind_eq_some_iff.mp hc
    obtain ⟨o, ho⟩ := hw.held x.fd c hc
    exact ⟨c, (owns_of_handle hx).mpr ⟨ho.1, hc⟩, ha⟩
  · rintro ⟨c, ⟨fd, ⟨_, hh⟩, hc⟩, ha⟩
    exact ⟨⟨fd⟩, hh, Option.bind_eq_some_iff.mpr ⟨c, hc, ha⟩⟩

end Invariant

variable {inetAddr : List Char → UInt32} {Has : Tcp → UInt32 × UInt16 → Prop}
  {n n' : Net H} {x y : Tcp}

/-- An operation on handles, and what it means for the servers and clients that these are of. -/
theorem NetInv.after (hn : NetInv Has n) (hs : SocketRAII.step n.sockets op = some w)
    {tcps : H → Option Tcp} (result : Except TcpError Unit)
    (hsame : ∀ h, h ∉ handlesOf op → tcps h = n.tcps h)
    (hhandle : ∀ h ∈ handlesOf op, tcps h ≠ none → w.handles h ≠ none)
    (howner : ∀ h ∈ handlesOf op, ∀ c a, owns w h c → c < n.sockets.os.next →
      n.listening c = some a → ∃ x, tcps h = some x ∧ x.running = true ∧ Has x a) :
    NetInv Has { n with sockets := w, tcps := tcps, returned := result } where
  inv := inv_step hn.inv hs
  handle := by
    intro h ht
    change tcps h ≠ none at ht
    by_cases hin : h ∈ handlesOf op
    · exact hhandle h hin ht
    · rw [hsame h hin] at ht
      show w.handles h ≠ none
      rw [handles_frame hs hin]
      exact hn.handle h ht
  fresh := fun c hc => Nat.lt_of_lt_of_le (hn.fresh c hc) (next_step hs)
  owner := by
    intro h c a hc ha
    by_cases hin : h ∈ handlesOf op
    · exact howner h hin c a hc (hn.fresh c (by rw [ha]; simp)) ha
    · show ∃ x, tcps h = some x ∧ _
      rw [hsame h hin]
      exact hn.owner h c a ((owns_frame hn.inv hs hin).mp hc) ha

theorem startResult_ok {fd bind listen : Int} (h : startResult fd bind listen = .ok ()) :
    0 ≤ fd := by
  unfold startResult at h
  split at h
  · exact absurd h (by simp)
  · omega

/-- A server that creates a socket lets go of the one it had. -/
theorem NetInv.afterCreate (hn : NetInv Has n)
    (hs : SocketRAII.step n.sockets (.createSocket h fd) = some w) (hx : n.tcps h = some x)
    (x' : Tcp) (result : Except TcpError Unit) (hkeep : fd < 0 → x' = x) :
    NetInv Has { n with
      sockets := w, tcps := Function.update n.tcps h (some x'), returned := result } := by
  refine hn.after hs result (fun o ho => ?_) (fun o ho _ => ?_) fun o ho c a hc hold ha => ?_
  · exact Function.update_of_ne (by simpa [handlesOf] using ho) ..
  · obtain rfl : o = h := by simpa [handlesOf] using ho
    by_cases hneg : fd < 0
    · rw [create_failed hs hneg]
      exact hn.handle o (by simp [hx])
    · rw [(create_handle hs (by omega)).2]
      exact Option.some_ne_none _
  · obtain rfl : o = h := by simpa [handlesOf] using ho
    by_cases hneg : fd < 0
    · rw [create_failed hs hneg] at hc
      rw [Function.update_self, hkeep hneg, ← hx]
      exact hn.owner o c a hc ha
    · have hnew := ((owns_created hn.inv hs (by omega)).2 c).mp hc
      omega

/-- A server whose calls fail after the socket is there, or a client. -/
theorem NetInv.afterFailure (hn : NetInv Has n)
    (hs : SocketRAII.step n.sockets (.createSocket h fd) = some w) (hx : n.tcps h = some x)
    (result : Except TcpError Unit) : NetInv Has { n.withSockets w with returned := result } := by
  have hsame : Function.update n.tcps h (some x) = n.tcps := by
    rw [← hx]
    exact Function.update_eq_self ..
  have hkept := hn.afterCreate hs hx x result fun _ => rfl
  rw [hsame] at hkept
  exact hkept

theorem net_ctor (hn : NetInv Has n) (hs : SocketRAII.step n.sockets (.ctor h (-1)) = some w)
    (ip : List Char) (port : UInt16) :
    NetInv Has { n.withSockets w with
      tcps := Function.update n.tcps h (some { ip := ip, port := port }) } := by
  have hempty : w.handles h = some ⟨-1⟩ := by
    rw [SocketRAII.step] at hs
    split at hs
    · obtain ⟨_, rfl⟩ := Transition.of_guard hs
      exact Function.update_self ..
    · exact absurd hs (by simp)
  refine hn.after hs n.returned (fun o ho => ?_) (fun o ho _ => ?_) fun o ho c a hc _ _ => ?_
  · exact Function.update_of_ne (by simpa [handlesOf] using ho) ..
  · obtain rfl : o = h := by simpa [handlesOf] using ho
    rw [hempty]
    exact Option.some_ne_none _
  · obtain rfl : o = h := by simpa [handlesOf] using ho
    exact absurd ((owns_of_handle hempty).mp hc).1 (by decide)

theorem net_start (hbound : ∀ x, Has x (x.address inetAddr))
    (hn : NetInv Has n) (hx : n.tcps h = some x)
    (hs : SocketRAII.step n.sockets (.createSocket h fd) = some w) (bind listen : Int) :
    NetInv Has ((n.withSockets w).started inetAddr h x fd (startResult fd bind listen)) := by
  cases hr : startResult fd bind listen with
  | error e => exact hn.afterFailure hs hx (.error e)
  | ok u =>
      have hpos := startResult_ok hr
      obtain ⟨htable, howns⟩ := owns_created hn.inv hs hpos
      have hkept := hn.afterCreate hs hx { x with running := true } (.ok ()) fun hneg => by omega
      have hlisten := hkept.listen ((howns _).mpr rfl) (Function.update_self ..) rfl
        (hbound { x with running := true })
      simp only [Net.started, Net.withSockets, htable]
      exact hlisten

theorem net_accept (hn : NetInv Has n) {client : H}
    (hs : SocketRAII.step n.sockets (.ctor client fd) = some w) (result : Except TcpError Unit) :
    NetInv Has { n.withSockets w with returned := result } := by
  have hnone : n.sockets.handles client = none := by
    rw [SocketRAII.step] at hs
    split at hs
    · assumption
    · exact absurd hs (by simp)
  refine hn.after hs result (fun o _ => rfl) (fun o ho ht => ?_) fun o ho c a hc hold ha => ?_
  · obtain rfl : o = client := by simpa [handlesOf] using ho
    exact absurd hnone (hn.handle o ht)
  · obtain rfl : o = client := by simpa [handlesOf] using ho
    obtain ⟨p, hp, hmem⟩ := owns_old hn.inv hs hold hc
    obtain rfl : p = o := by simpa [handlesOf] using hmem
    exact absurd hp (not_owns_none hnone)

/-- A move takes the connection along with the address and the flag. -/
theorem NetInv.afterMove (hn : NetInv Has n) (hs : SocketRAII.step n.sockets op = some w)
    (hop : handlesOf op = [h, o]) (hy : n.tcps o = some y) (left : List Char)
    {z : Socket} (hz : n.sockets.handles o = some z) (hh : w.handles h = some ⟨z.fd⟩)
    (ho : w.handles o = some ⟨-1⟩) :
    NetInv Has ((n.withSockets w).moved h o y left) := by
  refine hn.after hs n.returned (fun p hp => ?_) (fun p hp _ => ?_) fun p hp c a hc hold ha => ?_
  · rw [hop, List.mem_pair, not_or] at hp
    rw [Function.update_of_ne hp.2, Function.update_of_ne hp.1]
    rfl
  · rw [hop, List.mem_pair] at hp
    rcases hp with rfl | rfl
    · rw [hh]
      exact Option.some_ne_none _
    · rw [ho]
      exact Option.some_ne_none _
  · have hpo : p ≠ o := by
      rintro rfl
      exact absurd ((owns_of_handle ho).mp hc).1 (by decide)
    rw [hop, List.mem_pair] at hp
    obtain rfl : p = h := hp.resolve_right hpo
    obtain ⟨hpos, htable⟩ := (owns_of_handle hh).mp hc
    have hwas : owns n.sockets o c := by
      refine (owns_of_handle hz).mpr ⟨hpos, ?_⟩
      rcases table_step hs htable with hwas | ⟨_, hnext⟩
      · exact hwas
      · omega
    obtain ⟨x, hx, hhas⟩ := hn.owner o c a hwas ha
    rw [hy] at hx
    rw [Function.update_of_ne hpo, Function.update_self]
    exact ⟨y, rfl, Option.some.inj hx ▸ hhas⟩

theorem net_moveCtor (hn : NetInv Has n) (hs : SocketRAII.step n.sockets (.moveCtor h o) = some w)
    (hy : n.tcps o = some y) (left : List Char) :
    NetInv Has ((n.withSockets w).moved h o y left) := by
  have hs' := hs
  rw [SocketRAII.step] at hs'
  split at hs'
  · rename_i z hx hz
    injection hs' with hs'
    have hne : h ≠ o := by
      rintro rfl
      rw [hz] at hx
      exact absurd hx (by simp)
    refine hn.afterMove hs rfl hy left hz ?_ ?_
    · rw [← hs']
      show Function.update (Function.update n.sockets.handles h _) o _ h = _
      rw [Function.update_of_ne hne, Function.update_self]
    · rw [← hs']
      exact Function.update_self ..
  · exact absurd hs' (by simp)

theorem net_moveAssign (hn : NetInv Has n) (hne : h ≠ o)
    (hs : SocketRAII.step n.sockets (.moveAssign h o) = some w)
    (hy : n.tcps o = some y) (left : List Char) :
    NetInv Has ((n.withSockets w).moved h o y left) := by
  have hs' := hs
  rw [SocketRAII.step] at hs'
  split at hs'
  · rename_i x z hx hz
    injection hs' with hs'
    unfold World.moveAssign at hs'
    rw [if_pos hne] at hs'
    refine hn.afterMove hs rfl hy left hz ?_ ?_
    · rw [← hs']
      show Function.update (Function.update _ h _) o _ h = _
      rw [Function.update_of_ne hne, Function.update_self]
    · rw [← hs']
      exact Function.update_self ..
  · exact absurd hs' (by simp)

/-- An object that is moved to itself keeps its socket, and what it has but for the text. -/
theorem net_selfMove (hleft : ∀ x a left, Has x a → Has { x with ip := left } a)
    (hn : NetInv Has n) (hs : SocketRAII.step n.sockets (.moveAssign h h) = some w)
    (hy : n.tcps h = some y) (left : List Char) :
    NetInv Has ((n.withSockets w).moved h h y left) := by
  obtain rfl : w = n.sockets := by
    rw [SocketRAII.step] at hs
    split at hs
    · injection hs with hs
      rw [← hs]
      unfold World.moveAssign
      exact if_neg fun hne => hne rfl
    · exact absurd hs (by simp)
  have hin : ∀ p ∈ handlesOf (.moveAssign h h), p = h := by simp [handlesOf]
  refine hn.after hs n.returned (fun p hp => ?_) (fun p hp _ => ?_) fun p hp c a hc _ ha => ?_
  · have hne : p ≠ h := by simpa [handlesOf] using hp
    rw [Function.update_of_ne hne, Function.update_of_ne hne]
    rfl
  · rw [hin p hp]
    exact hn.handle h (by simp [hy])
  · obtain rfl := hin p hp
    obtain ⟨x, hx, hrunning, hhas⟩ := hn.owner p c a hc ha
    rw [hy] at hx
    obtain rfl := Option.some.inj hx
    rw [Function.update_self]
    exact ⟨_, rfl, hrunning, hleft y a left hhas⟩

theorem net_dtor (hn : NetInv Has n) (hs : SocketRAII.step n.sockets (.dtor h) = some w) :
    NetInv Has { n.withSockets w with tcps := Function.update n.tcps h none } := by
  have hnone : w.handles h = none := by
    obtain ⟨x, hx, rfl⟩ := Option.map_eq_some_iff.mp hs
    exact Function.update_self ..
  refine hn.after hs n.returned (fun o ho => ?_) (fun o ho ht => ?_) fun o ho c a hc _ _ => ?_
  · exact Function.update_of_ne (by simpa [handlesOf] using ho) ..
  · obtain rfl : o = h := by simpa [handlesOf] using ho
    exact absurd (Function.update_self ..) ht
  · obtain rfl : o = h := by simpa [handlesOf] using ho
    exact absurd hc (not_owns_none hnone)

/-- Handles of the program's own never have a connection that listens. -/
theorem net_socket (hn : NetInv Has n) (hs : SocketRAII.step n.sockets op = some w)
    (hown : ∀ h ∈ handlesOf op, n.tcps h = none) : NetInv Has (n.withSockets w) := by
  refine hn.after hs n.returned (fun o _ => rfl) (fun o ho ht => absurd (hown o ho) ht)
    fun o ho c a hc hold ha => ?_
  obtain ⟨p, hp, hmem⟩ := owns_old hn.inv hs hold hc
  obtain ⟨x, hx, hrest⟩ := hn.owner p c a hp ha
  rcases hmem with rfl | hmem
  · exact ⟨x, hx, hrest⟩
  · rw [hown p hmem] at hx
    exact absurd hx (by simp)

/-- **Every operation keeps the invariant.** -/
theorem net_step {op : Op H} (hbound : ∀ x, Has x (x.address inetAddr))
    (hleft : op.MovesOn ∨ ∀ x a left, Has x a → Has { x with ip := left } a)
    (hn : NetInv Has n) (hs : step inetAddr n op = some n') : NetInv Has n' := by
  cases op with
  | ctor h ip port =>
      obtain ⟨w, hw, rfl⟩ := Option.map_eq_some_iff.mp hs
      exact net_ctor hn hw ip port
  | start h fd bind listen =>
      obtain ⟨x, hx, hs⟩ := Option.bind_eq_some_iff.mp hs
      obtain ⟨w, hw, rfl⟩ := Option.map_eq_some_iff.mp hs
      exact net_start hbound hn hx hw bind listen
  | connectToServer h fd pton connect =>
      obtain ⟨x, hx, hs⟩ := Option.bind_eq_some_iff.mp hs
      obtain ⟨w, hw, rfl⟩ := Option.map_eq_some_iff.mp hs
      exact hn.afterFailure hw hx _
  | acceptClient h client fd =>
      obtain ⟨x, hx, hs⟩ := Option.bind_eq_some_iff.mp hs
      split at hs
      · injection hs with hs
        rw [← hs]
        exact { hn with }
      · split at hs
        · obtain ⟨w, hw, rfl⟩ := Option.map_eq_some_iff.mp hs
          exact net_accept hn hw _
        · exact absurd hs (by simp)
  | moveCtor h o left =>
      obtain ⟨y, hy, hs⟩ := Option.bind_eq_some_iff.mp hs
      obtain ⟨w, hw, rfl⟩ := Option.map_eq_some_iff.mp hs
      exact net_moveCtor hn hw hy left
  | moveAssign h o left =>
      obtain ⟨x, hx, hs⟩ := Option.bind_eq_some_iff.mp hs
      obtain ⟨y, hy, hs⟩ := Option.bind_eq_some_iff.mp hs
      obtain ⟨w, hw, rfl⟩ := Option.map_eq_some_iff.mp hs
      by_cases hne : h = o
      · obtain rfl := hne
        rcases hleft with hon | hleft
        · exact absurd rfl hon
        · exact net_selfMove hleft hn hw hy left
      · exact net_moveAssign hn hne hw hy left
  | dtor h =>
      obtain ⟨x, hx, hs⟩ := Option.bind_eq_some_iff.mp hs
      obtain ⟨w, hw, rfl⟩ := Option.map_eq_some_iff.mp hs
      exact net_dtor hn hw
  | socket op =>
      rw [step] at hs
      split at hs
      · rename_i hown
        obtain ⟨w, hw, rfl⟩ := Option.map_eq_some_iff.mp hs
        exact net_socket hn hw hown
      · exact absurd hs (by simp)

/-- Whatever is moved where: the port. -/
theorem net_reachable (h : Reachable inetAddr n) : NetInv (fun x a => x.port = a.2) n :=
  h.invariant net_init fun _ _ _ _ hi hs =>
    net_step (fun _ => rfl) (.inr fun _ _ _ hport => hport) hi hs

/-- As long as no object is moved to itself: the address. -/
theorem net_reachable_when
    (h : Transition.Reach (Transition.When (fun _ op => op.MovesOn) (Transition.Of (step inetAddr)))
      {} n) : NetInv (fun x a => x.address inetAddr = a) n :=
  h.invariant net_init fun _ _ _ _ hi hs => net_step (fun _ => rfl) (.inl hs.1) hi hs.2

/-! ## Down to the handles -/

/-- A step does nothing to the sockets, or what an operation on handles does. -/
theorem sockets_step {op : Op H} (hs : step inetAddr n op = some n') :
    n'.sockets = n.sockets ∨ ∃ op', SocketRAII.step n.sockets op' = some n'.sockets := by
  cases op with
  | ctor h ip port =>
      obtain ⟨w, hw, rfl⟩ := Option.map_eq_some_iff.mp hs
      exact .inr ⟨_, hw⟩
  | start h fd bind listen =>
      obtain ⟨x, _, hs⟩ := Option.bind_eq_some_iff.mp hs
      obtain ⟨w, hw, rfl⟩ := Option.map_eq_some_iff.mp hs
      refine .inr ⟨_, hw.trans (congrArg some ?_)⟩
      cases startResult fd bind listen <;> rfl
  | connectToServer h fd pton connect =>
      obtain ⟨x, _, hs⟩ := Option.bind_eq_some_iff.mp hs
      obtain ⟨w, hw, rfl⟩ := Option.map_eq_some_iff.mp hs
      exact .inr ⟨_, hw⟩
  | acceptClient h client fd =>
      obtain ⟨x, _, hs⟩ := Option.bind_eq_some_iff.mp hs
      split at hs
      · injection hs with hs
        rw [← hs]
        exact .inl rfl
      · split at hs
        · obtain ⟨w, hw, rfl⟩ := Option.map_eq_some_iff.mp hs
          exact .inr ⟨_, hw⟩
        · exact absurd hs (by simp)
  | moveCtor h o left =>
      obtain ⟨y, _, hs⟩ := Option.bind_eq_some_iff.mp hs
      obtain ⟨w, hw, rfl⟩ := Option.map_eq_some_iff.mp hs
      exact .inr ⟨_, hw⟩
  | moveAssign h o left =>
      obtain ⟨x, _, hs⟩ := Option.bind_eq_some_iff.mp hs
      obtain ⟨y, _, hs⟩ := Option.bind_eq_some_iff.mp hs
      obtain ⟨w, hw, rfl⟩ := Option.map_eq_some_iff.mp hs
      exact .inr ⟨_, hw⟩
  | dtor h =>
      obtain ⟨x, _, hs⟩ := Option.bind_eq_some_iff.mp hs
      obtain ⟨w, hw, rfl⟩ := Option.map_eq_some_iff.mp hs
      exact .inr ⟨_, hw⟩
  | socket op =>
      rw [step] at hs
      split at hs
      · obtain ⟨w, hw, rfl⟩ := Option.map_eq_some_iff.mp hs
        exact .inr ⟨_, hw⟩
      · exact absurd hs (by simp)

theorem sockets_reachable (h : Reachable inetAddr n) : SocketRAII.Reachable n.sockets := by
  induction h with
  | init => exact .init
  | tail _ hs ih =>
      rcases sockets_step hs with hsame | ⟨op, hop⟩
      · rw [hsame]
        exact ih
      · exact ih.tail hop

/--
**Who listens.**

Whatever a program does with servers, clients and handles, and whatever the system returns: it
does to the sockets only what handles can do, so that every descriptor is closed once; and an
open connection that listens is held by one handle, that of a server which is marked as running
and has the port that it was bound for. As long as no server is moved to itself, it has the address
as well.
-/
theorem tcp_listeners (inetAddr : List Char → UInt32) (n : Net H) (h : Reachable inetAddr n) :
    SocketRAII.Reachable n.sockets
      ∧ (∀ fd c a, n.sockets.os.table fd = some c → n.listening c = some a →
          ∃! h, n.sockets.holds h fd
            ∧ ∃ x, n.tcps h = some x ∧ x.running = true ∧ x.port = a.2)
      ∧ (Transition.Reach
            (Transition.When (fun _ op => op.MovesOn) (Transition.Of (step inetAddr))) {} n →
          ∀ fd c a, n.sockets.os.table fd = some c → n.listening c = some a →
            ∃! h, n.sockets.holds h fd
              ∧ ∃ x, n.tcps h = some x ∧ x.running = true ∧ x.address inetAddr = a) :=
  ⟨sockets_reachable h, fun _ _ _ => (net_reachable h).listener,
    fun hon _ _ _ => (net_reachable_when hon).listener⟩

/-- A server that was started and moved; the object that it was moved from keeps its flag. -/
theorem tcp_listeners_moved :
    let inetAddr (text : List Char) : UInt32 := if text = ['h'] then 16777343 else 4294967295
    let run : List (Op (Fin 3)) :=
      [.ctor 0 ['h'] 80, .start 0 3 0 0, .acceptClient 0 2 4, .moveCtor 1 0 []]
    let n := (Transition.exec
      (Transition.guarded (fun _ op => op.MovesOn) (step inetAddr)) {} run).get (by decide)
    n.sockets.os.table 3 = some 0 ∧ n.listening 0 = some (16777343, 80)
      ∧ n.tcps 0 = some { ip := [], port := 80, running := true }
      ∧ ∃! h, n.sockets.holds h 3
          ∧ ∃ x, n.tcps h = some x ∧ x.running = true ∧ x.address inetAddr = (16777343, 80) := by
  intro inetAddr run n
  have hon : Transition.Reach
      (Transition.When (fun _ op => op.MovesOn) (Transition.Of (step inetAddr))) {} n :=
    Transition.exec_reach_when run (Option.some_get _).symm
  exact ⟨by decide, by decide, by decide, (tcp_listeners inetAddr n
    (hon.mono fun _ _ _ hs => hs.2)).2.2 hon 3 0 _ (by decide) (by decide)⟩

/-- Moved to itself, a server goes on listening, without the text of its address. -/
example :
    (Transition.exec (step fun text => if text = ['h'] then 16777343 else 4294967295) {}
      [.ctor () ['h'] 80, .start () 3 0 0, .moveAssign () () []]).map
        (fun n => (n.tcps (), n.listensAt ()))
      = some (some { ip := [], port := 80, running := true }, some (16777343, 80)) := by decide

/-! ## Start -/

theorem startResult_bad {fd bind listen : Int} :
    startResult fd bind listen = .error .BAD_SOCKET ↔ fd < 0 := by
  unfold startResult
  constructor
  · intro h
    split at h
    · assumption
    · split at h
      · exact absurd h (by simp)
      · split at h
        · exact absurd h (by simp)
        · exact absurd h (by simp)
  · intro hneg
    rw [if_pos hneg]

theorem started_sockets (n : Net H) (h : H) (x : Tcp) (fd : Int) (r : Except TcpError Unit) :
    (n.started inetAddr h x fd r).sockets = n.sockets := by
  cases r <;> rfl

theorem started_inv {r : Except TcpError Unit} (hn : NetInv Has n)
    (hs : SocketRAII.step n.sockets (.createSocket h fd) = some w) :
    Inv ((n.withSockets w).started inetAddr h x fd r).sockets := by
  rw [started_sockets]
  exact inv_step hn.inv hs

theorem started_returned (n : Net H) (h : H) (x : Tcp) (fd : Int) (r : Except TcpError Unit) :
    (n.started inetAddr h x fd r).returned = r := by
  cases r <;> rfl

/-- The connections that listen are those that did, and the new one if all calls succeeded. -/
theorem started_listening (hn : NetInv Has n)
    (hs : SocketRAII.step n.sockets (.createSocket h fd) = some w)
    {bind listen : Int} (a : UInt32 × UInt16) :
    ((n.withSockets w).started inetAddr h x fd (startResult fd bind listen)).listening c = some a ↔
      n.listening c = some a
        ∨ startResult fd bind listen = .ok () ∧ c = n.sockets.os.next ∧ x.address inetAddr = a := by
  cases hr : startResult fd bind listen with
  | error e => simp [Net.started, Net.withSockets]
  | ok u =>
      have htable := (owns_created hn.inv hs (startResult_ok hr)).1
      simp only [Net.started, Net.withSockets, htable]
      by_cases hc : c = n.sockets.os.next
      · subst hc
        have hfresh : n.listening n.sockets.os.next = none := by
          by_contra hne
          exact Nat.lt_irrefl _ (hn.fresh _ hne)
        rw [Function.update_self, hfresh]
        simp
      · rw [Function.update_of_ne hc]
        simp [hc]

/-- Where the server listens then. -/
theorem started_listensAt (hn : NetInv Has n)
    (hs : SocketRAII.step n.sockets (.createSocket h fd) = some w) (bind listen : Int)
    (a : UInt32 × UInt16) :
    ((n.withSockets w).started inetAddr h x fd (startResult fd bind listen)).listensAt h = some a ↔
      startResult fd bind listen = .ok () ∧ x.address inetAddr = a
        ∨ startResult fd bind listen = .error .BAD_SOCKET ∧ n.listensAt h = some a := by
  rw [listensAt_iff (started_inv hn hs), started_sockets, startResult_bad]
  show (∃ c, owns w h c ∧ _) ↔ _
  simp only [started_listening hn hs]
  by_cases hneg : fd < 0
  · have hbad : startResult fd bind listen = .error .BAD_SOCKET := startResult_bad.mpr hneg
    rw [create_failed hs hneg, listensAt_iff hn.inv, hbad]
    simp [hneg]
  · have howns := (owns_created hn.inv hs (by omega)).2
    have hfresh : n.listening n.sockets.os.next ≠ some a := by
      intro ha
      exact Nat.lt_irrefl _ (hn.fresh _ (by rw [ha]; simp))
    simp only [howns]
    constructor
    · rintro ⟨c, rfl, hold | ⟨hok, _, ha⟩⟩
      · exact absurd hold hfresh
      · exact .inl ⟨hok, ha⟩
    · rintro (⟨hok, ha⟩ | ⟨hlt, _⟩)
      · exact ⟨_, rfl, .inr ⟨hok, rfl, ha⟩⟩
      · exact absurd hlt hneg

/-- Where another one listens. -/
theorem started_others (hn : NetInv Has n) (hne : o ≠ h)
    (hs : SocketRAII.step n.sockets (.createSocket h fd) = some w) (bind listen : Int) :
    ((n.withSockets w).started inetAddr h x fd (startResult fd bind listen)).listensAt o
      = n.listensAt o := by
  have hout : o ∉ handlesOf (.createSocket h fd) := by simpa [handlesOf] using hne
  refine Option.ext fun a => ?_
  rw [listensAt_iff (started_inv hn hs), listensAt_iff hn.inv, started_sockets]
  show (∃ c, owns w o c ∧ _) ↔ _
  refine exists_congr fun c => ?_
  rw [owns_frame hn.inv hs hout]
  refine and_congr_right fun hc => ?_
  rw [started_listening hn hs]
  have hold := owns_lt hn.inv hc
  exact or_iff_left fun hnew => Nat.lt_irrefl _ (hnew.2.1 ▸ hold)

/--
**A server listens if `start` says so, and else only if it did and no socket was created.**

Whatever has happened before: a `start` that gets a socket and fails later has given up the one
on which the server listened. Others go on as they were.
-/
theorem start_listens (inetAddr : List Char → UInt32) (n n' : Net H) (hn : Reachable inetAddr n)
    (h : H) (fd bind listen : Int)
    (hs : step inetAddr n (.start h fd bind listen) = some n') :
    ((∃ a, n'.listensAt h = some a) ↔
        n'.returned = .ok ()
          ∨ n'.returned = .error .BAD_SOCKET ∧ ∃ a, n.listensAt h = some a)
      ∧ ∀ o, o ≠ h → n'.listensAt o = n.listensAt o := by
  have hinv := net_reachable hn
  obtain ⟨x, _, hs⟩ := Option.bind_eq_some_iff.mp hs
  obtain ⟨w, hw, rfl⟩ := Option.map_eq_some_iff.mp hs
  refine ⟨?_, fun o hne => started_others hinv hne hw bind listen⟩
  rw [started_returned]
  simp only [started_listensAt hinv hw bind listen, exists_or, exists_and_left]
  simp

/-- A server that runs is started again, and its address cannot be bound: it does not listen any
more, and says that it is running. -/
theorem start_listens_again :
    let run : List (Op Unit) := [.ctor () ['h'] 80, .start () 3 0 0]
    let n := (Transition.exec (step fun _ => 16777343) {} run).get (by decide)
    let n' := (step (fun _ => 16777343) n (.start () 4 (-1) 0)).get (by decide)
    n.listensAt () = some (16777343, 80) ∧ n'.listensAt () = none
      ∧ (n'.tcps ()).map Tcp.running = some true
      ∧ ((∃ a, n'.listensAt () = some a) ↔
          n'.returned = .ok ()
            ∨ n'.returned = .error .BAD_SOCKET ∧ ∃ a, n.listensAt () = some a) :=
  ⟨by decide, by decide, by decide, (start_listens _ _ _
    (Transition.exec_reach _ (Option.some_get _).symm) () 4 (-1) 0 (Option.some_get _).symm).1⟩

end QuickStructs.TcpServer
