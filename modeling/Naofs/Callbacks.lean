import Naofs.Interface

/-!
# Naofs.Callbacks

The operations that FUSE calls (`main.c`).

Each callback is one of the calls of `Naofs.Interface` and of the file table, and an
`Operation` is a callback with its arguments.  What a callback writes through its pointers
is part of its `Reply`.
-/

namespace Naofs

/-- The fields of `struct fuse_context` that are read. -/
structure FuseContext where
  pid : Int
  uid : UInt32
  gid : UInt32

namespace FS

/-- The callbacks in `OPERATIONS`.  `path` of `write` and `release` is not read, and
`utimens` reads nothing. -/
inductive Operation where
  | getattr (path : Name)
  | mkdir (path : Name) (mode : UInt32)
  | readdir (path : Name)
  | create (path : Name) (mode : UInt32) (fi : FuseFileInfo)
  | open (path : Name) (fi : FuseFileInfo)
  | read (fi : FuseFileInfo) (buf : Nat → UInt8) (size offset : Nat)
  | truncate (path : Name) (size : Nat)
  | utimens
  | chown (path : Name) (uid gid : UInt32)
  | chmod (path : Name) (mode : UInt32)
  | write (fi : FuseFileInfo) (buf : Nat → UInt8) (size offset : Nat)
  | unlink (file : Name)
  | release (fi : FuseFileInfo)
  | rename (fromPath toPath : Name)
  | rmdir (file : Name)

/-- The result of a callback. -/
inductive Reply where
  | status (ret : Int)
  | attributes (ret : Int) (stbuf : Option Stat)
  | listing (ret : Int) (filled : List DirectoryEntry)
  | handle (ret : Int) (fi : FuseFileInfo)
  | data (ret : Int) (buf : Nat → UInt8)

/-- `create_callback`: the new file is opened. -/
def createCallback (env : Env) (context : FuseContext) (path : Name) (mode : UInt32)
    (fi : FuseFileInfo) : NaoM (Int × FuseFileInfo) := do
  let retVal ← createFile env path .regular mode context.uid context.gid
  if retVal ≠ 0 then pure (retVal, fi) else openFile env path fi context.pid

/-- What `closeFile` returns is dropped. -/
def releaseCallback (env : Env) (fi : FuseFileInfo) : NaoM Int := do
  let _ ← closeFile env fi
  pure 0

/-- `chown_callback` and `chmod_callback` return 0 for every path. -/
def chownCallback (env : Env) (path : Name) (uid gid : UInt32) : NaoM Int := do
  let _ ← changeOwner env path uid gid
  pure 0

def chmodCallback (env : Env) (path : Name) (mode : UInt32) : NaoM Int := do
  let _ ← changeMode env path mode
  pure 0

/-- The callback of an operation. -/
def Operation.run (env : Env) (context : FuseContext) : Operation → NaoM Reply
  | .getattr path => do
      let (ret, stbuf) ← attrPopulate env path
      pure (.attributes ret stbuf)
  | .mkdir path mode => do
      pure (.status (← createFile env path .directory mode context.uid context.gid))
  | .readdir path => do
      let (ret, filled) ← readDirectory env path
      pure (.listing ret filled)
  | .create path mode fi => do
      let (ret, fi) ← createCallback env context path mode fi
      pure (.handle ret fi)
  | .open path fi => do
      let (ret, fi) ← openFile env path fi context.pid
      pure (.handle ret fi)
  | .read fi buf size offset => do
      let (ret, buf) ← readFile env fi.fh buf size offset
      pure (.data ret buf)
  | .truncate path size => do
      pure (.status (← truncateFile env path size))
  | .utimens => pure (.status 0)
  | .chown path uid gid => do
      pure (.status (← chownCallback env path uid gid))
  | .chmod path mode => do
      pure (.status (← chmodCallback env path mode))
  | .write fi buf size offset => do
      pure (.status (← writeToFile env fi.fh buf size offset))
  | .unlink file => do
      pure (.status (← unlinkFile env file))
  | .release fi => do
      pure (.status (← releaseCallback env fi))
  | .rename fromPath toPath => do
      pure (.status (← renameFile env fromPath toPath))
  | .rmdir file => do
      pure (.status (← unlinkDir env file false))

end FS

end Naofs
