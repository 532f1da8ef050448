import Yfs.Lib.Codec
import Yfs.Store.Manager

/-! The RPCs between clients and servers: the types that every caller marshalls and the
types of the handler that is registered for the procedure. -/

namespace Yfs.Rpc

open Yfs.Lib Yfs.Store

/-- The types of arguments and results. -/
inductive Ty where
  | int | uint | ulonglong | string | attr
  deriving DecidableEq, Repr

abbrev Ty.Val : Ty → Type
  | .int => Int32
  | .uint => UInt32
  | .ulonglong => UInt64
  | .string => List UInt8
  | .attr => Attr

/-- The encodings of the library behind `rpc.h`: base types have a fixed width, and a
string comes behind its length. -/
structure Librpc where
  int : Codec Int32
  uint : Codec UInt32
  ulonglong : Codec UInt64
  length : Codec Nat
  int_fixed : int.Fixed 4
  uint_fixed : uint.Fixed 4
  ulonglong_fixed : ulonglong.Fixed 8

namespace Librpc

variable (L : Librpc)

/-- The operators of `extent_protocol.h` for `attr`. -/
def attr : Codec Attr :=
  (L.uint.pair (L.uint.pair (L.uint.pair (L.uint.pair L.uint)))).via
    (fun a => (a.type, a.atime, a.mtime, a.ctime, a.size))
    (fun p => ⟨p.1, p.2.1, p.2.2.1, p.2.2.2.1, p.2.2.2.2⟩) (fun _ => rfl)

def codec : (t : Ty) → Codec t.Val
  | .int => L.int
  | .uint => L.uint
  | .ulonglong => L.ulonglong
  | .string => .counted L.length
  | .attr => L.attr

/-- The arguments of a call, marshalled in order. -/
def args (ts : List Ty) : Codec (Row Ty.Val ts) := .row L.codec ts

end Librpc

/-- The procedures of `lock_protocol`, `rlock_protocol`, `extent_protocol` and
`rextent_protocol`. -/
inductive Proc where
  | acquire | release | stat
  | revoke | retry
  | put | get | getattr | remove | create
  | flush | clear | syncMeta
  deriving DecidableEq, Repr

structure Signature where
  params : List Ty
  result : Ty
  deriving DecidableEq, Repr

/-- The handlers that `lock_smain.cc`, `extent_smain.cc` and the constructors of
`lock_client_cache` and `extent_client` register. -/
def registered : Proc → Signature
  | .stat => ⟨[.ulonglong], .int⟩                 -- lock_server_cache::stat
  | .acquire => ⟨[.ulonglong, .string], .int⟩     -- lock_server_cache::acquire
  | .release => ⟨[.ulonglong, .string], .int⟩     -- lock_server_cache::release
  | .revoke => ⟨[.ulonglong], .int⟩               -- lock_client_cache::revoke_handler
  | .retry => ⟨[.ulonglong], .int⟩                -- lock_client_cache::retry_handler
  | .create => ⟨[.string, .uint], .ulonglong⟩     -- extent_server::create
  | .put => ⟨[.string, .ulonglong, .string], .int⟩ -- extent_server::put
  | .get => ⟨[.string, .ulonglong], .string⟩      -- extent_server::get
  | .getattr => ⟨[.string, .ulonglong], .attr⟩    -- extent_server::getattr
  | .remove => ⟨[.string, .ulonglong], .int⟩      -- extent_server::remove
  | .flush => ⟨[.ulonglong], .int⟩                -- extent_client::flush_handler
  | .clear => ⟨[.ulonglong], .int⟩                -- extent_client::clear_handler
  | .syncMeta => ⟨[.ulonglong], .attr⟩            -- extent_client::sync_meta_handler

/-- The calls of the stubs and of the servers' callbacks, by the function they stand in. -/
inductive Site where
  | lockClientStat | lockClientAcquire | lockClientRelease
  | lockClientCacheWait | lockClientCacheRelease | lockClientCacheRevokeHandler
  | lockServerCacheAcquireLocked | lockServerCacheAcquireRetrying | lockServerCacheRelease
  | extentClientCreate | extentClientGet | extentClientGetattr | extentClientRemove | extentClientFlush
  | extentServerGet | extentServerGetattr | extentServerRemove
  deriving DecidableEq, Repr

namespace Site

def proc : Site → Proc
  | .lockClientStat => .stat
  | .lockClientAcquire | .lockClientCacheWait => .acquire
  | .lockClientRelease | .lockClientCacheRelease | .lockClientCacheRevokeHandler => .release
  | .lockServerCacheAcquireLocked | .lockServerCacheAcquireRetrying => .revoke
  | .lockServerCacheRelease => .retry
  | .extentClientCreate => .create
  | .extentClientGet => .get
  | .extentClientGetattr => .getattr
  | .extentClientRemove => .remove
  | .extentClientFlush => .put
  | .extentServerGet => .flush
  | .extentServerGetattr => .syncMeta
  | .extentServerRemove => .clear

/-- The types that `rpcc::call` is instantiated with. -/
def signature : Site → Signature
  -- cl->id(), lid
  | .lockClientStat | .lockClientAcquire | .lockClientRelease => ⟨[.uint, .ulonglong], .int⟩
  -- lid, id
  | .lockClientCacheWait | .lockClientCacheRelease | .lockClientCacheRevokeHandler =>
    ⟨[.ulonglong, .string], .int⟩
  -- lid
  | .lockServerCacheAcquireLocked | .lockServerCacheAcquireRetrying | .lockServerCacheRelease =>
    ⟨[.ulonglong], .int⟩
  -- cid, type
  | .extentClientCreate => ⟨[.string, .uint], .ulonglong⟩
  -- cid, eid
  | .extentClientGet => ⟨[.string, .ulonglong], .string⟩
  | .extentClientGetattr => ⟨[.string, .ulonglong], .attr⟩
  | .extentClientRemove => ⟨[.string, .ulonglong], .int⟩
  -- cid, eid, cache->data
  | .extentClientFlush => ⟨[.string, .ulonglong, .string], .int⟩
  -- id
  | .extentServerGet | .extentServerRemove => ⟨[.ulonglong], .int⟩
  | .extentServerGetattr => ⟨[.ulonglong], .attr⟩

end Site

/-- The bytes of the arguments are consumed and give the handler the same values, and
the bytes of the result give the caller the result. -/
structure Site.Agrees (L : Librpc) (s : Site) (args : Row Ty.Val s.signature.params)
    (r : (registered s.proc).result.Val) : Prop where
  args : ∃ got, (L.args (registered s.proc).params).read ((L.args s.signature.params).write args) =
    some (got, []) ∧ got.values = args.values
  reply : ∃ got, (L.codec s.signature.result).read ((L.codec (registered s.proc).result).write r) =
    some (got, []) ∧ (⟨_, got⟩ : (t : Ty) × t.Val) = ⟨_, r⟩

variable (L : Librpc)

theorem agree_of_eq {σ τ : Signature} (same : τ = σ) (args : Row Ty.Val τ.params) (r : σ.result.Val) :
    (∃ got, (L.args σ.params).read ((L.args τ.params).write args) = some (got, []) ∧
      got.values = args.values) ∧
    ∃ got, (L.codec τ.result).read ((L.codec σ.result).write r) = some (got, []) ∧
      (⟨_, got⟩ : (t : Ty) × t.Val) = ⟨_, r⟩ := by
  subst same
  exact ⟨⟨args, Codec.done _ args, rfl⟩, ⟨r, Codec.done _ r, rfl⟩⟩

namespace Site

/-- Only the stubs of `lock_client` have other types than the handlers. -/
theorem signature_eq_iff (s : Site) : s.signature = registered s.proc ↔
    s ≠ .lockClientStat ∧ s ≠ .lockClientAcquire ∧ s ≠ .lockClientRelease := by
  cases s <;> decide

theorem signature_of_params {s : Site} (same : (registered s.proc).params = s.signature.params) :
    s.signature = registered s.proc := by
  cases s <;> first | rfl | cases same

/-- Caller and handler agree on an RPC, whatever its values are, if and only if it is not
one of the stubs of `lock_client`. -/
theorem agrees_iff (s : Site) (args : Row Ty.Val s.signature.params)
    (r : (registered s.proc).result.Val) : s.Agrees L args r ↔
      s ≠ .lockClientStat ∧ s ≠ .lockClientAcquire ∧ s ≠ .lockClientRelease := by
  rw [← signature_eq_iff]
  constructor
  · intro agrees
    obtain ⟨got, -, equal⟩ := agrees.args
    apply signature_of_params
    calc (registered s.proc).params = got.values.map Sigma.fst := got.values_types.symm
      _ = args.values.map Sigma.fst := by rw [equal]
      _ = s.signature.params := args.values_types
  · intro same
    obtain ⟨consumed, decoded⟩ := agree_of_eq L same args r
    exact ⟨consumed, decoded⟩

end Site

/-- Numbers in network byte order, and strings behind a length of four bytes. -/
def networkOrder : Librpc where
  int := (Codec.numeral 4 UInt32.toNat UInt32.ofNat (by simp)).via Int32.toUInt32 UInt32.toInt32 (by simp)
  uint := Codec.numeral 4 UInt32.toNat UInt32.ofNat (by simp)
  ulonglong := Codec.numeral 8 UInt64.toNat UInt64.ofNat (by simp)
  length := .escaped 4 .unary
  int_fixed := (Codec.fixed_numeral _ _ _ _).via _ _ _
  uint_fixed := Codec.fixed_numeral _ _ _ _
  ulonglong_fixed := Codec.fixed_numeral _ _ _ _

/-- `lock_demo` asks for the lock 1, under a nonce of 7. The handler takes the nonce and
the upper half of the lock id for a lock id, and four bytes are left. -/
theorem stat_disagrees :
    (networkOrder.args [.ulonglong]).read ((networkOrder.args [.uint, .ulonglong]).write (7, 1, ())) =
      some ((30064771072, ()), [0, 0, 0, 1]) ∧
    ¬ Site.Agrees networkOrder .lockClientStat (7, 1, ()) (0 : Int32) := by
  have taken : (networkOrder.args [.ulonglong]).read
      ((networkOrder.args [.uint, .ulonglong]).write (7, 1, ())) =
        some ((30064771072, ()), [0, 0, 0, 1]) := by rfl
  refine ⟨taken, ?_⟩
  intro agrees
  obtain ⟨got, done, -⟩ := agrees.args
  cases taken.symm.trans done

end Yfs.Rpc
