import Libc370.Net.Sockets
import Mathlib.Data.Set.Insert

/-! What the socket table is for, and that it does it.

Of the sockets open in the emulator some are the program's and the others are not. It makes
sockets and closes them, learns their names, and when it ends those that are still its own
are closed, each once, and no other (`Does`). The code knows its sockets by its list alone,
so that holds as long as nobody else closes them: a number on the list is open, and the
emulator gives it to nobody else (`Sound`). A socket whose record found no storage is not
the program's. -/
namespace Libc370.Sockets

open Ext Keyed Machine

/-! ### What the table is for -/

/-- The program's sockets with their names, and the others that are open. -/
@[ext] structure Table where
  mine : Int → Option Clibsock
  theirs : Set Int

def Table.adopt (t : Table) (x : Clibsock) : Table := ⟨Function.update t.mine x.socket (some x), t.theirs⟩

def Table.leave (t : Table) (ss : Int) : Table := ⟨t.mine, insert ss t.theirs⟩

def Table.change (t : Table) (ss : Int) (f : Clibsock → Clibsock) : Table :=
  ⟨Function.update t.mine ss ((t.mine ss).map f), t.theirs⟩

def Table.close (t : Table) (ss : Int) : Table := ⟨Function.update t.mine ss none, t.theirs \ {ss}⟩

/-- A new socket is the program's, unless storage is refused. -/
structure Made (e : Env) (t : Table) (x : Clibsock) (t' : Table) : Prop where
  unused : t.mine x.socket = none ∧ x.socket ∉ t.theirs
  owner : t' = t.adopt x ∨ (∃ i, e.grant i = false) ∧ t' = t.leave x.socket

/-- A name is asked for: one that has been recorded is the answer. -/
def Named (field : Clibsock → Sockaddr) (t : Table) (ss : Int) (addrlen : Int) (r : Answer) (t' : Table) : Prop :=
  t' = t ∧ ∃ rc a, r = .named rc a ∧
    ∀ x, t.mine ss = some x → (field x).blank = false → 16 ≤ addrlen → rc = 0 ∧ a = field x

/-- A socket is connected: its peer is `name`, and its own name the one it has or is told. -/
def Connects (t : Table) (ss : Int) (name : Sockaddr) (t' : Table) : Prop :=
  ∃ a, (∀ x, t.mine ss = some x → x.name.blank = false → a = x.name) ∧
    t' = t.change ss (Clibsock.named (some a) (some name))

/-- What a call answers and does to the sockets. -/
def Does (t : Table) : Call × Env → Answer → Table → Prop
  | (.socket _ _ _, e), r, t' => ∃ rc, r = .code rc ∧ if 0 ≤ rc then Made e t ⟨rc, .zero, .zero⟩ t' else t' = t
  | (.accept _ _ _, e), r, t' =>
    (r = .waiting ∧ t' = t) ∨ ∃ rc a, r = .named rc a ∧
      let name := (e.host 0 (.sockname rc)).block.getD .zero
      if 0 ≤ rc then Made e t ⟨rc, name, (e.host 0 (.peername rc)).block.getD name⟩ t' else t' = t
  | (.bind ss name _, _), r, t' =>
    ∃ rc a, r = .named rc a ∧
      (∃ port, a = name.withPort port ∧ (port = name.port ∨ 10000 ≤ port ∧ port ≤ 42767)) ∧
      if rc = 0 then t' = t.change ss (Clibsock.named (some a) none) else t' = t
  | (.connect ss name, _), r, t' =>
    ∃ rc, r = .code rc ∧ if 0 ≤ rc then Connects t ss name t' else t' = t
  | (.getsockname ss _ addrlen, _), r, t' => Named Clibsock.name t ss addrlen r t'
  | (.getpeername ss _ addrlen, _), r, t' => Named Clibsock.peer t ss addrlen r t'
  | (.closesocket ss, _), r, t' => r = .code 0 ∧ t' = t.close ss
  | (.soend, _), r, t' =>
    t' = ⟨fun _ => none, t.theirs⟩ ∧
      ∃ ns : List Int, r = .sent (ns.map .close) ∧ ns.Nodup ∧ ∀ n, n ∈ ns ↔ (t.mine n).isSome
  | (.opens ss, _), r, t' => r = .code 0 ∧ t' = t.leave ss
  | (.closes ss, _), r, t' => r = .code 0 ∧ t' = ⟨t.mine, t.theirs \ {ss}⟩

/-! ### The table of the code -/

def Net.view (s : Net) : Table :=
  ⟨look Clibsock.socket s.listed, { n | n ∈ s.opened ∧ look Clibsock.socket s.listed n = none }⟩

/-- What is listed is open, and listed once. -/
structure Sound (s : Net) : Prop where
  once : (s.listed.map Clibsock.socket).Nodup
  opened : ∀ x ∈ s.listed, x.socket ∈ s.opened

/-- The emulator gives out numbers that are not in use, and a name is bound or it is not. -/
structure Honest (s : Net) (host : Host) : Prop where
  socket : ∀ k af type protocol, 0 ≤ (host k (.socket af type protocol)).r4 →
    (host k (.socket af type protocol)).r4 ∉ s.opened
  accept : ∀ k ss, 0 ≤ (host k (.accept ss)).r4 → (host k (.accept ss)).r4 ∉ s.opened
  bind : ∀ k ss name, (host k (.bind ss name)).r4 ≤ 0

/-- Nobody else closes a socket of the program's. -/
def Admitted (s : Net) : Call × Env → Prop
  | (.opens ss, _) => ss ∉ s.opened
  | (.closes ss, _) => look Clibsock.socket s.listed ss = none
  | (_, e) => Honest s e.host

variable {s s' s'' : Net} {host : Host} {grant : Nat → Bool} {ss : Int} {x : Clibsock}

theorem not_listed (h : Sound s) {n : Int} (hn : n ∉ s.opened) : look Clibsock.socket s.listed n = none := by
  rw [look_none, List.mem_map]
  rintro ⟨x, hx, rfl⟩
  exact hn (h.opened x hx)

/-- Neither the list nor what is open has changed. -/
structure Quiet (s s' : Net) : Prop where
  listed : s'.listed = s.listed
  opened : s'.opened = s.opened

theorem Quiet.refl (s : Net) : Quiet s s := ⟨rfl, rfl⟩

theorem Quiet.trans (h : Quiet s s') (h' : Quiet s' s'') : Quiet s s'' :=
  ⟨h'.listed.trans h.listed, h'.opened.trans h.opened⟩

theorem Quiet.sound (h : Quiet s s') (hs : Sound s) : Sound s' ∧ s'.view = s.view := by
  refine ⟨⟨?_, ?_⟩, ?_⟩
  · rw [h.listed]
    exact hs.once
  · rw [h.listed, h.opened]
    exact hs.opened
  · unfold Net.view
    rw [h.listed, h.opened]

/-! ### The list -/

theorem soadd_cases (grant : Nat → Bool) (ss : Int) (name peer : Option Sockaddr) (s : Net) :
    (soadd grant ss name peer s).2.opened = s.opened ∧
      ((soadd grant ss name peer s).2.listed = s.listed ++ [⟨ss, name.getD .zero, peer.getD .zero⟩] ∨
        (∃ i, grant i = false) ∧ (soadd grant ss name peer s).2.listed = s.listed) := by
  unfold soadd
  cases hgrant : grant 1 with
  | false => exact ⟨rfl, .inr ⟨⟨1, hgrant⟩, rfl⟩⟩
  | true =>
    refine ⟨rfl, ?_⟩
    rcases arrayadd_cases (grant 2) s.grtsock ⟨ss, name.getD .zero, peer.getD .zero⟩ with ⟨-, hlist⟩ | ⟨hno, -, hsame⟩
    · exact .inl hlist
    · exact .inr ⟨⟨2, hno⟩, congrArg VArray.list hsame⟩

/-- A socket that is new in the emulator is listed, or left alone. -/
theorem Sound.made (h : Sound s) (hnew : x.socket ∉ s.opened) (hopened : s'.opened = x.socket :: s.opened) {e : Env}
    (hlisted : s'.listed = s.listed ++ [x] ∨ (∃ i, e.grant i = false) ∧ s'.listed = s.listed) :
    Sound s' ∧ Made e s.view x s'.view := by
  have hnone := not_listed h hnew
  have hunused : s.view.mine x.socket = none ∧ x.socket ∉ s.view.theirs := ⟨hnone, fun hmem => hnew hmem.1⟩
  rcases hlisted with hlisted | ⟨hno, hlisted⟩
  · have hlook : look Clibsock.socket s'.listed =
        Function.update (look Clibsock.socket s.listed) x.socket (some x) := by
      rw [hlisted]
      exact look_append (look_none.mp hnone)
    refine ⟨⟨?_, ?_⟩, hunused, .inl ?_⟩
    · rw [hlisted, List.map_append, List.map_singleton]
      exact List.Nodup.append h.once (List.nodup_singleton _) (List.disjoint_singleton.mpr (look_none.mp hnone))
    · rw [hlisted, hopened]
      intro y hy
      rcases List.mem_append.mp hy with hy | hy
      · exact List.mem_cons_of_mem _ (h.opened y hy)
      · rw [List.mem_singleton.mp hy]
        exact List.mem_cons_self ..
    · apply Table.ext
      · exact hlook
      · ext n
        show n ∈ s'.opened ∧ look Clibsock.socket s'.listed n = none ↔
          n ∈ s.opened ∧ look Clibsock.socket s.listed n = none
        rw [hlook, hopened]
        by_cases hn : n = x.socket
        · rw [hn, Function.update_self]
          exact ⟨fun hno => absurd hno.2 (Option.some_ne_none _), fun hyes => absurd hyes.1 hnew⟩
        · rw [Function.update_of_ne hn, List.mem_cons, or_iff_right hn]
  · refine ⟨⟨?_, ?_⟩, hunused, .inr ⟨hno, ?_⟩⟩
    · rw [hlisted]
      exact h.once
    · rw [hlisted, hopened]
      exact fun y hy => List.mem_cons_of_mem _ (h.opened y hy)
    · apply Table.ext
      · show look Clibsock.socket s'.listed = look Clibsock.socket s.listed
        rw [hlisted]
      · ext n
        show n ∈ s'.opened ∧ look Clibsock.socket s'.listed n = none ↔ n ∈ insert x.socket s.view.theirs
        rw [hlisted, hopened, List.mem_cons, Set.mem_insert_iff]
        by_cases hn : n = x.socket
        · rw [hn]
          exact ⟨fun _ => .inl rfl, fun _ => ⟨.inl rfl, hnone⟩⟩
        · rw [or_iff_right hn, or_iff_right hn]
          rfl

/-- Where a record is says that it is there. -/
theorem sofind_eq_zero : sofind ss s = 0 ↔ look Clibsock.socket s.listed ss = none := by
  rw [← place_none]
  unfold sofind
  cases place Clibsock.socket s.listed ss with
  | none => exact ⟨fun _ => rfl, fun _ => rfl⟩
  | some n => exact ⟨fun h => absurd h (Nat.succ_ne_zero n), fun h => absurd h (Option.some_ne_none _)⟩

theorem alter_list (v : VArray Clibsock) (n : Nat) (f : Clibsock → Clibsock) :
    (alter v n f).list = v.list.modify n f := by
  cases v with
  | none => exact (List.modify_nil ..).symm
  | some a => rfl

/-- Names go into the record of a socket that is listed. -/
theorem Sound.soupd (h : Sound s) (ss : Int) (name peer : Option Sockaddr) :
    Sound (soupd ss name peer s) ∧ (soupd ss name peer s).view = s.view.change ss (Clibsock.named name peer) := by
  unfold Sockets.soupd
  by_cases hfind : sofind ss s = 0
  · rw [if_pos hfind]
    refine ⟨h, ?_⟩
    have hnone : s.view.mine ss = none := sofind_eq_zero.mp hfind
    rw [Table.change, hnone, Option.map_none, ← hnone, Function.update_eq_self]
  · rw [if_neg hfind]
    cases hplace : place Clibsock.socket s.listed ss with
    | none => exact absurd (sofind_eq_zero.mpr (place_none.mp hplace)) hfind
    | some n =>
      have hfound : sofind ss s = n + 1 := by rw [sofind, hplace]; rfl
      rw [hfound, Nat.add_sub_cancel]
      have hkey : ∀ x, Clibsock.socket (Clibsock.named name peer x) = Clibsock.socket x := fun _ => rfl
      have hlisted : (alter s.grtsock n (Clibsock.named name peer)).list =
          s.listed.modify n (Clibsock.named name peer) :=
        alter_list ..
      have hlook := look_modify hkey hplace
      have hmap := map_modify hkey s.listed n
      have hnone : ∀ m, look Clibsock.socket (s.listed.modify n (Clibsock.named name peer)) m = none ↔
          look Clibsock.socket s.listed m = none := fun m => by rw [look_none, look_none, hmap]
      refine ⟨⟨?_, ?_⟩, ?_⟩
      · show ((alter _ _ _).list.map _).Nodup
        rw [hlisted, hmap]
        exact h.once
      · intro x hx
        have hmem : x.socket ∈ s.listed.map Clibsock.socket := by
          rw [← hmap, ← hlisted]
          exact List.mem_map_of_mem hx
        obtain ⟨y, hy, hsocket⟩ := List.mem_map.mp hmem
        show x.socket ∈ s.opened
        rw [← hsocket]
        exact h.opened y hy
      · apply Table.ext
        · show look Clibsock.socket (alter _ _ _).list = _
          rw [hlisted]
          exact hlook
        · ext m
          show m ∈ s.opened ∧ look Clibsock.socket (alter _ _ _).list m = none ↔
            m ∈ s.opened ∧ look Clibsock.socket s.listed m = none
          rw [hlisted, hnone]

/-- A socket closed by the program, its own or not. -/
theorem Sound.closed (h : Sound s) (host : Host) (ss : Int) :
    Sound (closesocket host ss s).2 ∧ (closesocket host ss s).2.view = s.view.close ss := by
  have hopened : (closesocket host ss s).2.opened = s.opened.filter (· ≠ ss) := by
    unfold closesocket sodel
    dsimp only
    split <;> rfl
  -- Either way the list is as the map without the socket.
  have hlisted : (closesocket host ss s).2.listed.Sublist s.listed ∧
      look Clibsock.socket (closesocket host ss s).2.listed =
        Function.update (look Clibsock.socket s.listed) ss none := by
    unfold closesocket sodel
    dsimp only
    cases hplace : place Clibsock.socket (clr host ss s).listed ss with
    | none =>
      refine ⟨List.Sublist.refl _, ?_⟩
      have hnone : look Clibsock.socket s.listed ss = none := place_none.mp hplace
      exact (Function.update_eq_self_iff.mpr hnone.symm).symm
    | some n =>
      have hdel : (arraydel s.grtsock (n + 1)).2.list = s.listed.eraseIdx n := (arraydel_list _ (Nat.succ_pos n)).2
      refine ⟨?_, ?_⟩
      · show (arraydel s.grtsock (n + 1)).2.list.Sublist _
        rw [hdel]
        exact List.eraseIdx_sublist _ _
      · show look _ (arraydel s.grtsock (n + 1)).2.list = _
        rw [hdel]
        exact look_erase h.once hplace
  obtain ⟨hsub, hlook⟩ := hlisted
  refine ⟨⟨h.once.sublist (hsub.map _), ?_⟩, ?_⟩
  · intro x hx
    rw [hopened, List.mem_filter]
    refine ⟨h.opened x (hsub.subset hx), decide_eq_true fun heq => ?_⟩
    have hnone : look Clibsock.socket (closesocket host ss s).2.listed ss = none := by rw [hlook, Function.update_self]
    exact look_none.mp hnone (List.mem_map.mpr ⟨x, hx, heq⟩)
  · apply Table.ext
    · exact hlook
    · ext n
      show n ∈ (closesocket host ss s).2.opened ∧ look Clibsock.socket (closesocket host ss s).2.listed n = none ↔
        (n ∈ s.opened ∧ look Clibsock.socket s.listed n = none) ∧ n ≠ ss
      rw [hlook, hopened, List.mem_filter, decide_eq_true_eq]
      by_cases hn : n = ss
      · rw [hn, Function.update_self]
        exact ⟨fun hyes => absurd rfl hyes.1.2, fun hyes => absurd rfl hyes.2⟩
      · rw [Function.update_of_ne hn]
        exact ⟨fun hyes => ⟨⟨hyes.1.1, hyes.2⟩, hn⟩, fun hyes => ⟨⟨hyes.1.1, hyes.2⟩, hyes.1.2⟩⟩

/-- The sockets of a list closed one after the other. -/
theorem clr_all (host : Host) (l : List Clibsock) (s : Net) :
    (l.foldr (fun x s => clr host x.socket s) s).opened = s.opened.filter (fun n => n ∉ l.map Clibsock.socket) ∧
      (l.foldr (fun x s => clr host x.socket s) s).sent =
        s.sent ++ (l.reverse.map Clibsock.socket).map Request.close := by
  induction l with
  | nil => simp
  | cons x l ih =>
    rw [List.foldr_cons]
    refine ⟨?_, ?_⟩
    · show (List.foldr _ s l).opened.filter (· ≠ x.socket) = _
      rw [ih.1, List.filter_filter]
      refine List.filter_congr fun n _ => ?_
      simp [List.mem_cons, not_or]
    · show (List.foldr _ s l).sent ++ [Request.close x.socket] = _
      rw [ih.2]
      simp

/-- The end of the program. -/
theorem Sound.ended (h : Sound s) (host : Host) :
    Sound (soend host s) ∧ (soend host s).view = ⟨fun _ => none, s.view.theirs⟩ ∧
      ∃ ns : List Int, (soend host s).sent = s.sent ++ ns.map .close ∧ ns.Nodup ∧
        ∀ n, n ∈ ns ↔ (s.view.mine n).isSome := by
  obtain ⟨hopened, hsent⟩ := clr_all host s.listed s
  refine ⟨⟨List.nodup_nil, fun x hx => absurd hx List.not_mem_nil⟩, ?_,
    s.listed.reverse.map Clibsock.socket, hsent, ?_, fun n => ?_⟩
  · apply Table.ext
    · rfl
    · ext n
      show n ∈ (List.foldr _ s s.listed).opened ∧ look Clibsock.socket [] n = none ↔
        n ∈ s.opened ∧ look Clibsock.socket s.listed n = none
      rw [hopened, List.mem_filter, decide_eq_true_eq, look_none, look_none]
      exact and_iff_left List.not_mem_nil
  · rw [List.map_reverse]
    exact List.nodup_reverse.mpr h.once
  · rw [List.map_reverse, List.mem_reverse, ← not_iff_not, ← look_none, Bool.not_eq_true, Option.isSome_eq_false_iff,
      Option.isNone_iff_eq_none]
    rfl

/-! ### The calls -/

/-- What a request about a socket's name finds, and what it leaves alone. -/
theorem getname_quiet {request : Int → Request}
    (hrequest : ∀ ss reply opened, (request ss).effect reply opened = opened) (field : Clibsock → Sockaddr)
    (host : Host) (ss : Int) (addr : Sockaddr) (addrlen : Int) (s : Net) :
    Quiet s (getname request field host ss addr addrlen s).2.2 := by
  have hhost : Quiet s (getname.fromHost request host ss addr s).2.2 := by
    unfold getname.fromHost
    dsimp only
    split
    · exact ⟨rfl, hrequest ..⟩
    · exact ⟨rfl, hrequest ..⟩
  unfold getname
  split
  · split
    · exact hhost
    · exact Quiet.refl s
  · exact hhost

theorem getname_named {request : Int → Request}
    (hrequest : ∀ ss reply opened, (request ss).effect reply opened = opened) (field : Clibsock → Sockaddr)
    (h : Sound s) (host : Host) (ss : Int) (addr : Sockaddr) (addrlen : Int) :
    Sound (getname request field host ss addr addrlen s).2.2 ∧
      Named field s.view ss addrlen (naming (getname request field host ss addr addrlen s)).1
        (getname request field host ss addr addrlen s).2.2.view := by
  obtain ⟨hsound, hview⟩ := (getname_quiet hrequest field host ss addr addrlen s).sound h
  refine ⟨hsound, hview, _, _, rfl, fun x hx hblank hlen => ?_⟩
  have hlook : look Clibsock.socket s.listed ss = some x := hx
  have hwhole : addr.copy (field x) 16 = field x := by
    have htake : (field x).bytes.take 16 = (field x).bytes := List.take_of_length_le (field x).sixteen.le
    have hdrop : addr.bytes.drop 16 = [] := List.drop_eq_nil_of_le addr.sixteen.le
    simp only [Sockaddr.copy, htake, hdrop, List.append_nil]
  have hn : (if addrlen < 0 ∨ 16 < addrlen then 16 else addrlen.toNat) = 16 := by
    split <;> omega
  unfold getname
  simp only [hlook, hblank, hn, hwhole]
  exact ⟨rfl, rfl⟩

/-- The name the emulator is asked for while none is recorded. -/
theorem getname_asked (host : Host) (request : Int → Request) (field : Clibsock → Sockaddr) (addr : Sockaddr)
    (addrlen : Int)
    (hunknown : ∀ x, look Clibsock.socket s.listed ss = some x → (field x).blank = true) :
    (getname request field host ss addr addrlen s).2.1 = (host 0 (request ss)).block.getD addr := by
  have hhost : (getname.fromHost request host ss addr s).2.1 = (host 0 (request ss)).block.getD addr := by
    unfold getname.fromHost
    dsimp only
    split <;> rfl
  unfold getname
  split
  · next x hx => rw [if_pos (hunknown x hx), hhost]
  · exact hhost

/-- What is asked about names leaves everything open as it is. -/
theorem sockname_effect (ss : Int) (reply : Reply) (opened : List Int) :
    (Request.sockname ss).effect reply opened = opened := rfl

theorem peername_effect (ss : Int) (reply : Reply) (opened : List Int) :
    (Request.peername ss).effect reply opened = opened := rfl

theorem init75_quiet (host : Host) (grant : Nat → Bool) (s : Net) : Quiet s (init75 host grant s) := by
  unfold init75
  split_ifs with hnull
  · refine ⟨?_, rfl⟩
    have hempty : s.grtsock = none := Option.isNone_iff_eq_none.mp hnull.1
    show (arraynew 1024).items = s.grtsock.list
    rw [hempty]
    rfl
  · exact ⟨rfl, rfl⟩

theorem Quiet.honest (h : Quiet s s') (hhost : Honest s host) : Honest s' host := by
  refine ⟨?_, ?_, hhost.bind⟩
  · rw [h.opened]
    exact hhost.socket
  · rw [h.opened]
    exact hhost.accept

theorem socket_does (h : Sound s) {e : Env} (hhost : Honest s e.host) (af type protocol : Int) :
    let r := socket e.host e.grant af type protocol s
    Sound r.2 ∧ if 0 ≤ r.1 then Made e s.view ⟨r.1, .zero, .zero⟩ r.2.view else r.2.view = s.view := by
  intro r
  have hinit : Quiet s (if s.sockinit then s else init75 e.host e.grant s) := by
    split
    · exact Quiet.refl s
    · exact init75_quiet ..
  obtain ⟨hs, hv⟩ := hinit.sound h
  have hr : r = socket e.host e.grant af type protocol s := rfl
  unfold socket at hr
  generalize (if s.sockinit then s else init75 e.host e.grant s) = s₁ at hinit hs hv hr
  have hnew := (hinit.honest hhost).socket 0 af type protocol
  by_cases hrc : 0 ≤ (e.host 0 (.socket af type protocol)).r4
  · simp only [if_pos hrc] at hr
    have hopened : (s₁.asked e.host 0 (.socket af type protocol)).opened =
        (e.host 0 (.socket af type protocol)).r4 :: s₁.opened := if_pos hrc
    obtain ⟨hsame, hlisted⟩ := soadd_cases e.grant (e.host 0 (.socket af type protocol)).r4 none none
      (s₁.asked e.host 0 (.socket af type protocol))
    obtain ⟨hsound, hmade⟩ := hs.made (x := ⟨_, .zero, .zero⟩) (hnew hrc) (hsame.trans hopened) hlisted
    rw [hr]
    refine ⟨hsound, ?_⟩
    rw [if_pos hrc, ← hv]
    exact hmade
  · simp only [if_neg hrc] at hr
    have hquiet : Quiet s₁ r.2 := by
      rw [hr]
      exact ⟨rfl, if_neg hrc⟩
    obtain ⟨hsound, hview⟩ := hquiet.sound hs
    have hneg : ¬ 0 ≤ r.1 := by rw [hr]; exact hrc
    refine ⟨hsound, ?_⟩
    rw [if_neg hneg]
    exact hview.trans hv

/-- Waiting changes nothing, and the last answer is about a socket that is new. -/
theorem acceptLoop_some {patience k : Nat} {r : Reply × Net} (hhost : Honest s host)
    (hr : acceptLoop host ss patience k s = some r) :
    r.2.listed = s.listed ∧ (0 ≤ r.1.r4 → r.1.r4 ∉ s.opened ∧ r.2.opened = r.1.r4 :: s.opened) ∧
      (¬ 0 ≤ r.1.r4 → r.2.opened = s.opened) := by
  induction patience generalizing k s with
  | zero => cases hr
  | succ patience ih =>
    rw [acceptLoop] at hr
    by_cases hwait : (host k (.accept ss)).r4 = -2
    · rw [if_neg (not_not.mpr hwait)] at hr
      have hquiet : Quiet s (s.asked host k (.accept ss)) := ⟨rfl, if_neg (by omega)⟩
      obtain ⟨hlisted, hyes, hno⟩ := ih (hquiet.honest hhost) hr
      rw [hquiet.listed] at hlisted
      rw [hquiet.opened] at hyes hno
      exact ⟨hlisted, hyes, hno⟩
    · rw [if_pos hwait] at hr
      obtain rfl := Option.some.inj hr
      exact ⟨rfl, fun hrc => ⟨hhost.accept k ss hrc, if_pos hrc⟩, fun hrc => if_neg hrc⟩

theorem zero_blank : Sockaddr.zero.blank = true := by decide

theorem adopt_self (t : Table) (x : Clibsock) : (t.adopt x).mine x.socket = some x := Function.update_self ..

/-- Names put into the record of a new socket. -/
theorem Made.named {e : Env} {t t' : Table} (h : Made e t x t') (name peer : Option Sockaddr) :
    Made e t (x.named name peer) (t'.change x.socket (Clibsock.named name peer)) := by
  refine ⟨h.unused, ?_⟩
  rcases h.owner with rfl | ⟨hno, rfl⟩
  · left
    unfold Table.change Table.adopt
    dsimp only
    rw [Function.update_self, Option.map_some, Function.update_idem]
    rfl
  · refine .inr ⟨hno, ?_⟩
    unfold Table.change Table.leave
    dsimp only
    rw [h.unused.1, Option.map_none, ← h.unused.1, Function.update_eq_self]
    rfl

theorem accepted_does (h : Sound s) (ss : Int) (name : Sockaddr) {e : Env} {reply : Reply}
    (hlisted : s'.listed = s.listed)
    (hyes : 0 ≤ reply.r4 → reply.r4 ∉ s.opened ∧ s'.opened = reply.r4 :: s.opened)
    (hno : ¬ 0 ≤ reply.r4 → s'.opened = s.opened) :
    let r := accepted e.host e.grant ss name reply s'
    let local' := (e.host 0 (.sockname reply.r4)).block.getD .zero
    r.1 = reply.r4 ∧ Sound r.2.2 ∧
      if 0 ≤ reply.r4 then
        Made e s.view ⟨reply.r4, local', (e.host 0 (.peername reply.r4)).block.getD local'⟩ r.2.2.view
      else r.2.2.view = s.view := by
  intro r local'
  have hr : r = accepted e.host e.grant ss name reply s' := rfl
  unfold accepted at hr
  by_cases hrc : 0 ≤ reply.r4
  · obtain ⟨hnew, hopened⟩ := hyes hrc
    have hnone : look Clibsock.socket s'.listed reply.r4 = none := by
      rw [hlisted]
      exact not_listed h hnew
    have hname := getname_asked e.host .sockname Clibsock.name .zero 16 fun x hx =>
      absurd (hnone.symm.trans hx) (Option.some_ne_none x).symm
    have hquiet := getname_quiet sockname_effect Clibsock.name e.host reply.r4 .zero 16 s'
    simp only [if_pos hrc] at hr
    unfold getsockname at hr
    generalize getname .sockname Clibsock.name e.host reply.r4 .zero 16 s' = told at hname hquiet hr
    obtain ⟨hsame, hadded⟩ := soadd_cases e.grant reply.r4 (some told.2.1) none told.2.2
    rw [hquiet.listed, hlisted] at hadded
    obtain ⟨hs₂, hmade⟩ := h.made (x := ⟨reply.r4, told.2.1, .zero⟩) hnew
      (hsame.trans (hquiet.opened.trans hopened)) hadded
    generalize (soadd e.grant reply.r4 (some told.2.1) none told.2.2).2 = s₂ at hs₂ hmade hr
    -- The record, if there is one, has no peer yet.
    have hunknown : ∀ y, look Clibsock.socket s₂.listed reply.r4 = some y → y.peer.blank = true := by
      intro y hy
      have hmine : s₂.view.mine reply.r4 = some y := hy
      rcases hmade.owner with howner | ⟨-, howner⟩
      · rw [howner] at hmine
        rw [← Option.some.inj ((adopt_self s.view _).symm.trans hmine)]
        exact zero_blank
      · rw [howner] at hmine
        exact absurd (hmade.unused.1.symm.trans hmine) (Option.some_ne_none y).symm
    have hpeer := getname_asked e.host .peername Clibsock.peer told.2.1 16 hunknown
    have hquiet₂ := getname_quiet peername_effect Clibsock.peer e.host reply.r4 told.2.1 16 s₂
    unfold getpeername at hr
    generalize getname .peername Clibsock.peer e.host reply.r4 told.2.1 16 s₂ = met at hpeer hquiet₂ hr
    obtain ⟨hs₃, hview₃⟩ := hquiet₂.sound hs₂
    obtain ⟨hsound, hview⟩ := hs₃.soupd reply.r4 none (some met.2.1)
    have hnamed := hmade.named none (some met.2.1)
    rw [hr]
    refine ⟨rfl, hsound, ?_⟩
    rw [if_pos hrc, hview, hview₃]
    rw [hname] at hpeer hnamed
    rw [hpeer] at hnamed ⊢
    exact hnamed
  · have hquiet : Quiet s r.2.2 := by
      rw [hr, if_neg hrc]
      split
      · exact ⟨hlisted, hno hrc⟩
      · exact ⟨hlisted, hno hrc⟩
    obtain ⟨hsound, hview⟩ := hquiet.sound h
    refine ⟨?_, hsound, ?_⟩
    · rw [hr, if_neg hrc]
      split <;> rfl
    · rw [if_neg hrc]
      exact hview

theorem bind1_does (h : Sound s) (hhost : Honest s host) (k : Nat) (ss : Int) (name : Sockaddr) :
    let r := bind1 host k ss name s
    Sound r.2 ∧ r.1 ≤ 0 ∧ (r.1 = 0 → r.2.view = s.view.change ss (Clibsock.named (some name) none)) ∧
      (r.1 ≠ 0 → Quiet s r.2) := by
  intro r
  have hle := hhost.bind k ss name
  have hr : r = bind1 host k ss name s := rfl
  have hasked : Quiet s (s.asked host k (.bind ss name)) := ⟨rfl, rfl⟩
  obtain ⟨hs, hv⟩ := hasked.sound h
  unfold bind1 at hr
  by_cases hrc : 0 ≤ (host k (.bind ss name)).r4
  · simp only [if_pos hrc] at hr
    obtain ⟨hsound, hview⟩ := hs.soupd ss (some name) none
    rw [hr]
    exact ⟨hsound, hle, fun _ => hview.trans (by rw [hv]), fun hne => absurd (le_antisymm hle hrc) hne⟩
  · simp only [if_neg hrc] at hr
    have hquiet : Quiet s r.2 := by
      rw [hr]
      exact ⟨rfl, rfl⟩
    have hneg : r.1 = (host k (.bind ss name)).r4 := by rw [hr]
    refine ⟨(hquiet.sound h).1, by omega, fun hzero => absurd (hzero ▸ hneg) (by omega), fun _ => hquiet⟩

theorem withPort_withPort (a : Sockaddr) (p q : Nat) : (a.withPort p).withPort q = a.withPort q := by
  unfold Sockaddr.withPort
  simp only [Sockaddr.mk.injEq]
  rw [List.set_comm _ _ (by decide), List.set_set, List.set_comm _ _ (by decide), List.set_set]

/-- An address has its own port. -/
theorem withPort_port (a : Sockaddr) : a.withPort a.port = a := by
  obtain ⟨bytes, hlen⟩ := a
  obtain ⟨b₀, b₁, b₂, b₃, rest, rfl⟩ : ∃ b₀ b₁ b₂ b₃ rest, bytes = b₀ :: b₁ :: b₂ :: b₃ :: rest := by
    rcases bytes with _ | ⟨b₀, _ | ⟨b₁, _ | ⟨b₂, _ | ⟨b₃, rest⟩⟩⟩⟩
    all_goals first | exact ⟨_, _, _, _, _, rfl⟩ | simp at hlen
  have hhigh : UInt8.ofNat ((b₂.toNat * 256 + b₃.toNat) / 256) = b₂ := by
    rw [show (b₂.toNat * 256 + b₃.toNat) / 256 = b₂.toNat by have := b₃.toNat_lt; omega, UInt8.ofNat_toNat]
  have hlow : UInt8.ofNat (b₂.toNat * 256 + b₃.toNat) = b₃ := by
    apply UInt8.toNat_inj.mp
    rw [UInt8.toNat_ofNat']
    have := b₃.toNat_lt
    omega
  simp only [Sockaddr.withPort, Sockaddr.port, Sockaddr.mk.injEq]
  show b₀ :: b₁ :: UInt8.ofNat ((b₂.toNat * 256 + b₃.toNat) / 256) ::
    UInt8.ofNat (b₂.toNat * 256 + b₃.toNat) :: rest = _
  rw [hhigh, hlow]

theorem portOf_bounds (seed : BitVec 32) : 10000 ≤ portOf seed ∧ portOf seed ≤ 42767 := by
  have hmask : (seed >>> 16 &&& 0x7FFF).toNat ≤ 0x7FFF := by
    rw [BitVec.toNat_and]
    exact Nat.and_le_right
  unfold portOf
  omega

/-- A port is bound, or all of them were refused. -/
theorem portLoop_does (h : Sound s) (hhost : Honest s host) (ss : Int) (n : Nat) (seed : BitVec 32) (name : Sockaddr) :
    let r := portLoop host ss n seed name s
    if r.1 then
      ∃ port, 10000 ≤ port ∧ port ≤ 42767 ∧ r.2.1 = name.withPort port ∧ Sound r.2.2 ∧
        r.2.2.view = s.view.change ss (Clibsock.named (some r.2.1) none)
    else r.2.1 = name.withPort 0 ∧ Quiet s r.2.2 := by
  induction n generalizing seed name s with
  | zero => exact ⟨rfl, Quiet.refl s⟩
  | succ n ih =>
    intro r
    obtain ⟨hsound, -, hbound, hquiet⟩ := bind1_does h hhost (n + 1) ss (name.withPort (portOf (nextSeed seed)))
    obtain ⟨hlow, hhigh⟩ := portOf_bounds (nextSeed seed)
    have hr : r = portLoop host ss (n + 1) seed name s := rfl
    rw [portLoop] at hr
    generalize bind1 host (n + 1) ss (name.withPort (portOf (nextSeed seed))) s = r₁ at hsound hbound hquiet hr
    by_cases hzero : r₁.1 = 0
    · simp only [if_pos hzero] at hr
      rw [hr]
      exact ⟨_, hlow, hhigh, rfl, hsound, hbound hzero⟩
    · simp only [if_neg hzero] at hr
      have hnext := ih hsound ((hquiet hzero).honest hhost) (nextSeed seed) (name.withPort (portOf (nextSeed seed)))
      rw [← hr, ((hquiet hzero).sound h).2] at hnext
      simp only [withPort_withPort] at hnext
      revert hnext
      split
      · exact id
      · exact fun hnext => ⟨hnext.1, (hquiet hzero).trans hnext.2⟩

theorem bind_does (h : Sound s) (hhost : Honest s host) (seed : BitVec 32) (ss : Int) (name : Sockaddr) :
    let r := bind host seed ss name s
    Sound r.2.2 ∧ (∃ port, r.2.1 = name.withPort port ∧ (port = name.port ∨ 10000 ≤ port ∧ port ≤ 42767)) ∧
      if r.1 = 0 then r.2.2.view = s.view.change ss (Clibsock.named (some r.2.1) none) else r.2.2.view = s.view := by
  intro r
  have hone : ∀ s₁ : Net, Sound s₁ → Honest s₁ host → s₁.view = s.view → ∀ a : Sockaddr,
      Sound (bind1 host 0 ss a s₁).2 ∧ if (bind1 host 0 ss a s₁).1 = 0 then
        (bind1 host 0 ss a s₁).2.view = s.view.change ss (Clibsock.named (some a) none)
      else (bind1 host 0 ss a s₁).2.view = s.view := by
    intro s₁ hs₁ hhost₁ hview a
    obtain ⟨hsound, -, hbound, hquiet⟩ := bind1_does hs₁ hhost₁ 0 ss a
    refine ⟨hsound, ?_⟩
    split
    · next hzero => exact (hbound hzero).trans (by rw [hview])
    · next hzero => exact ((hquiet hzero).sound hs₁).2.trans hview
  have hr : r = bind host seed ss name s := rfl
  unfold bind at hr
  by_cases hport : name.port = 0
  · have hloop := portLoop_does h hhost ss 100 seed name
    simp only [if_pos hport] at hr
    generalize portLoop host ss 100 seed name s = r₁ at hloop hr
    by_cases hbound : r₁.1 = true
    · rw [if_pos hbound] at hloop hr
      obtain ⟨port, hlow, hhigh, hname, hsound, hview⟩ := hloop
      rw [hr]
      refine ⟨hsound, ⟨port, hname, .inr ⟨hlow, hhigh⟩⟩, ?_⟩
      rw [if_pos rfl]
      exact hview
    · rw [if_neg hbound] at hloop hr
      obtain ⟨hname, hquiet⟩ := hloop
      obtain ⟨hs₁, hv₁⟩ := hquiet.sound h
      obtain ⟨hsound, hdoes⟩ := hone r₁.2.2 hs₁ (hquiet.honest hhost) hv₁ r₁.2.1
      rw [hr]
      exact ⟨hsound, ⟨0, hname, .inl hport.symm⟩, hdoes⟩
  · simp only [if_neg hport] at hr
    obtain ⟨hsound, hdoes⟩ := hone s h hhost rfl name
    rw [hr]
    exact ⟨hsound, ⟨name.port, (withPort_port name).symm, .inl rfl⟩, hdoes⟩

theorem connected_does (h : Sound s) (host : Host) (ss : Int) (name : Sockaddr) (rc : Int) :
    let r := connected host ss name rc s
    r.1 = rc ∧ Sound r.2 ∧
      if 0 ≤ rc then Connects s.view ss name r.2.view else r.2.view = s.view := by
  intro r
  have hr : r = connected host ss name rc s := rfl
  unfold connected at hr
  by_cases hrc : 0 ≤ rc
  · obtain ⟨hs₁, hv₁, hnamed⟩ := getname_named sockname_effect Clibsock.name h host ss .zero 16
    simp only [if_pos hrc] at hr
    unfold getsockname at hr
    generalize getname .sockname Clibsock.name host ss .zero 16 s = told at hs₁ hv₁ hnamed hr
    obtain ⟨hsound, hview⟩ := hs₁.soupd ss (some told.2.1) (some name)
    rw [hr, if_pos hrc]
    refine ⟨rfl, hsound, told.2.1, fun x hx hblank => ?_, hview.trans (by rw [hv₁])⟩
    obtain ⟨rc, a, hanswer, hknown⟩ := hnamed
    have ha : told.2.1 = a := by
      injection hanswer
    exact ha.trans (hknown x hx hblank le_rfl).2
  · have hquiet : Quiet s r.2 := by
      rw [hr, if_neg hrc]
      exact ⟨rfl, rfl⟩
    obtain ⟨hsound, hview⟩ := hquiet.sound h
    refine ⟨by rw [hr, if_neg hrc], hsound, ?_⟩
    rw [if_neg hrc]
    exact hview

theorem connect_does (h : Sound s) (host : Host) (ss : Int) (name : Sockaddr) :
    let r := connect host ss name s
    Sound r.2 ∧
      if 0 ≤ r.1 then Connects s.view ss name r.2.view else r.2.view = s.view := by
  intro r
  have hr : r = connect host ss name s := rfl
  have hfirst : Quiet s (s.asked host 0 (.connect ss 1 name)) := ⟨rfl, rfl⟩
  have hsecond : Quiet s ((s.asked host 0 (.connect ss 1 name)).asked host 0 (.connect ss 0 name)) := ⟨rfl, rfl⟩
  have hconnected : ∀ s₁ rc, Quiet s s₁ → r = connected host ss name rc s₁ → Sound r.2 ∧
      if 0 ≤ r.1 then Connects s.view ss name r.2.view else r.2.view = s.view := by
    intro s₁ rc hquiet hr₁
    obtain ⟨hs₁, hv₁⟩ := hquiet.sound h
    obtain ⟨hrc, hsound, hdoes⟩ := connected_does hs₁ host ss name rc
    rw [hr₁, hrc]
    rw [hv₁] at hdoes
    exact ⟨hsound, hdoes⟩
  unfold connect at hr
  simp only at hr
  split at hr
  · exact hconnected _ _ hfirst hr
  · split at hr
    · exact hconnected _ _ hsecond hr
    · have hquiet : Quiet s r.2 := by
        rw [hr]
        exact hsecond.trans ⟨rfl, rfl⟩
      obtain ⟨hsound, hview⟩ := hquiet.sound h
      have hneg : ¬ 0 ≤ r.1 := by
        rw [hr]
        exact (by decide : ¬ (0 : Int) ≤ -1)
      rw [if_neg hneg]
      exact ⟨hsound, hview⟩

/-! ### Runs -/

/-- Every call does what it is for. -/
theorem step_does (h : Sound s) {i : Call × Env} (hi : Admitted s i) :
    Does s.view i (step s i).1 (step s i).2.view ∧ Sound (step s i).2 := by
  obtain ⟨c, e⟩ := i
  cases c with
  | socket af type protocol =>
    obtain ⟨hsound, hdoes⟩ := socket_does h hi af type protocol
    exact ⟨⟨_, rfl, hdoes⟩, hsound⟩
  | accept ss name patience =>
    cases hloop : acceptLoop e.host ss patience 0 s with
    | none =>
      have hstep : step s (.accept ss name patience, e) = (.waiting, s) := by
        rw [step, accept, hloop]
        rfl
      rw [hstep]
      exact ⟨.inl ⟨rfl, rfl⟩, h⟩
    | some r =>
      obtain ⟨hlisted, hyes, hno⟩ := acceptLoop_some hi hloop
      obtain ⟨hrc, hsound, hdoes⟩ := accepted_does h ss name (e := e) hlisted hyes hno
      have hstep : step s (.accept ss name patience, e) = naming (accepted e.host e.grant ss name r.1 r.2) := by
        rw [step, accept, hloop]
        rfl
      rw [hstep]
      rw [← hrc] at hdoes
      exact ⟨.inr ⟨_, _, rfl, hdoes⟩, hsound⟩
  | bind ss name seed =>
    obtain ⟨hsound, hport, hdoes⟩ := bind_does h hi seed ss name
    exact ⟨⟨_, _, rfl, hport, hdoes⟩, hsound⟩
  | connect ss name =>
    obtain ⟨hsound, hdoes⟩ := connect_does h e.host ss name
    exact ⟨⟨_, rfl, hdoes⟩, hsound⟩
  | getsockname ss addr addrlen => exact (getname_named sockname_effect Clibsock.name h e.host ss addr addrlen).symm
  | getpeername ss addr addrlen => exact (getname_named peername_effect Clibsock.peer h e.host ss addr addrlen).symm
  | closesocket ss =>
    obtain ⟨hsound, hview⟩ := h.closed e.host ss
    exact ⟨⟨rfl, hview⟩, hsound⟩
  | soend =>
    obtain ⟨hsound, hview, ns, hsent, hrest⟩ := h.ended e.host
    refine ⟨⟨hview, ns, ?_, hrest⟩, hsound⟩
    show Answer.sent ((soend e.host s).sent.drop s.sent.length) = _
    rw [hsent, List.drop_left]
  | opens ss =>
    have hnone := not_listed h hi
    refine ⟨⟨rfl, Table.ext rfl ?_⟩, h.once, fun x hx => List.mem_cons_of_mem _ (h.opened x hx)⟩
    ext n
    show n ∈ ss :: s.opened ∧ look Clibsock.socket s.listed n = none ↔ n ∈ insert ss s.view.theirs
    rw [List.mem_cons, Set.mem_insert_iff, or_and_right]
    refine or_congr ⟨fun hyes => hyes.1, ?_⟩ Iff.rfl
    rintro rfl
    exact ⟨rfl, hnone⟩
  | closes ss =>
    have hnone : look Clibsock.socket s.listed ss = none := hi
    refine ⟨⟨rfl, Table.ext rfl ?_⟩, h.once, fun x hx => ?_⟩
    · ext n
      show n ∈ s.opened.filter (· ≠ ss) ∧ look Clibsock.socket s.listed n = none ↔
        (n ∈ s.opened ∧ look Clibsock.socket s.listed n = none) ∧ n ≠ ss
      rw [List.mem_filter, decide_eq_true_eq]
      exact and_right_comm
    · have hne : x.socket ≠ ss := by
        rintro rfl
        exact look_none.mp hnone (List.mem_map_of_mem hx)
      exact List.mem_filter.mpr ⟨h.opened x hx, decide_eq_true hne⟩

/-- **The sockets are accounted for**: from a program that has none, every run of calls, with
other programs between them, does what the table is for. In the end a socket is open in the
emulator exactly if it is the program's or another's, and it is not both. -/
theorem sockets_accounted {calls : List (Call × Env)} (hnone : s.listed = []) (hcalls : Along step Admitted s calls) :
    Follows Does ⟨fun _ => none, { n | n ∈ s.opened }⟩ calls (answers step s calls) (final step s calls).view ∧
      ∀ n, (n ∈ (final step s calls).opened ↔
          ((final step s calls).view.mine n).isSome ∨ n ∈ (final step s calls).view.theirs) ∧
        ¬ (((final step s calls).view.mine n).isSome ∧ n ∈ (final step s calls).view.theirs) := by
  have hsound : Sound s := ⟨by rw [hnone]; exact List.nodup_nil,
    by rw [hnone]; exact fun x hx => absurd hx List.not_mem_nil⟩
  have hview : s.view = ⟨fun _ => none, { n | n ∈ s.opened }⟩ := by
    unfold Net.view
    rw [hnone]
    exact Table.ext rfl (Set.ext fun n => and_iff_left rfl)
  obtain ⟨hfollows, hfinal⟩ := follows_along Net.view (fun s i hs hi => step_does hs hi) hsound hcalls
  rw [hview] at hfollows
  refine ⟨hfollows, fun n => ?_⟩
  generalize final step s calls = t at hfinal
  have htheirs : n ∈ t.view.theirs ↔ n ∈ t.opened ∧ t.view.mine n = none := Iff.rfl
  rw [htheirs]
  cases hmine : t.view.mine n with
  | none => simp
  | some x =>
    have hopen : n ∈ t.opened := by
      rw [← look_key hmine]
      exact hfinal.opened x (look_mem hmine)
    simp [hopen]

/-- A program without sockets, and no socket open. -/
def Net.bare : Net := ⟨[], VArray.null, false, 0, []⟩

def Request.makes : Request → Bool
  | .socket _ _ _ => true
  | _ => false

/-- An emulator whose next socket is `n`. -/
def gives (n : Int) : Env := ⟨fun _ r => ⟨if r.makes then n else 0, none⟩, fun _ => true⟩

/-- A socket is made, another program makes one, and the program ends. -/
def making : List (Call × Env) := [(.socket 2 1 0, gives 5), (.opens 7, gives 9), (.soend, gives 9)]

theorem sockets_accounted_making :
    Follows Does ⟨fun _ => none, { n | n ∈ Net.bare.opened }⟩ making (answers step .bare making)
        (final step .bare making).view ∧
      ∀ n, (n ∈ (final step .bare making).opened ↔
          ((final step .bare making).view.mine n).isSome ∨ n ∈ (final step .bare making).view.theirs) ∧
        ¬ (((final step .bare making).view.mine n).isSome ∧ n ∈ (final step .bare making).view.theirs) := by
  have hhonest : ∀ (s : Net) (n : Int), n ∉ s.opened → 0 ∉ s.opened → Honest s (gives n).host := fun s n hn hzero =>
    ⟨fun _ _ _ _ _ => hn, fun _ _ _ => hzero, fun _ _ _ => le_rfl⟩
  apply sockets_accounted (s := .bare) rfl
  have hopens : 7 ∉ (step .bare (.socket 2 1 0, gives 5)).2.opened := by decide
  exact ⟨hhonest _ _ (by decide) (by decide), hopens, hhonest _ _ (by decide) (by decide), trivial⟩

end Libc370.Sockets
